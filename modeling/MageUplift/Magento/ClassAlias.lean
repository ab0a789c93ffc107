import MageUplift.Php.ClassName
import MageUplift.Settings.Basic
import MageUplift.Text.Blank

/-!
# Class aliases

Magento 1 names classes by an alias: a module, a slash and a path (`catalog/product_type`), or the module
alone for its data helper. An `AliasTable` finds the Magento 2 class that an alias stands for, first
among the classes named outright, then by the namespace of the module and the naming convention
(`product_type` under `Model` is `Model\Product\Type`).

Aliases are compared after trimming white space and without regard to ASCII case (`aliasKey`). A table
can only be extended by well-formed targets, so a class named outright is a fully-qualified class name. An
answer of the convention is one unless a later part of the path begins with a digit.
-/

namespace MageUplift.Magento

/-! ## §1. The built-in tables. -/

/-- The namespaces of the modules that both versions have. -/
def builtinModules : List (String × String) :=
  [("admin", "Magento\\User"), ("adminhtml", "Magento\\Backend"), ("api", "Magento\\Webapi"),
   ("bundle", "Magento\\Bundle"), ("captcha", "Magento\\Captcha"), ("catalog", "Magento\\Catalog"),
   ("cataloginventory", "Magento\\CatalogInventory"), ("catalogrule", "Magento\\CatalogRule"),
   ("catalogsearch", "Magento\\CatalogSearch"), ("checkout", "Magento\\Checkout"),
   ("cms", "Magento\\Cms"), ("configurableswatches", "Magento\\Swatches"),
   ("contacts", "Magento\\Contact"), ("cron", "Magento\\Cron"), ("customer", "Magento\\Customer"),
   ("directory", "Magento\\Directory"), ("downloadable", "Magento\\Downloadable"),
   ("eav", "Magento\\Eav"), ("giftmessage", "Magento\\GiftMessage"),
   ("importexport", "Magento\\ImportExport"), ("index", "Magento\\Indexer"),
   ("newsletter", "Magento\\Newsletter"), ("page", "Magento\\Theme"), ("payment", "Magento\\Payment"),
   ("paypal", "Magento\\Paypal"), ("persistent", "Magento\\Persistent"),
   ("productalert", "Magento\\ProductAlert"), ("rating", "Magento\\Review"),
   ("reports", "Magento\\Reports"), ("review", "Magento\\Review"), ("rss", "Magento\\Rss"),
   ("sales", "Magento\\Sales"), ("salesrule", "Magento\\SalesRule"),
   ("sendfriend", "Magento\\SendFriend"), ("shipping", "Magento\\Shipping"),
   ("sitemap", "Magento\\Sitemap"), ("tax", "Magento\\Tax"), ("weee", "Magento\\Weee"),
   ("widget", "Magento\\Widget"), ("wishlist", "Magento\\Wishlist")]

/-- Models whose class does not follow the naming convention. -/
def builtinClasses : List (String × String) :=
  [("admin/session", "\\Magento\\Backend\\Model\\Auth\\Session"),
   ("adminhtml/session", "\\Magento\\Backend\\Model\\Session"),
   ("checkout/session", "\\Magento\\Checkout\\Model\\Session"),
   ("core/date", "\\Magento\\Framework\\Stdlib\\DateTime\\DateTime"),
   ("core/design_package", "\\Magento\\Framework\\View\\DesignInterface"),
   ("core/resource", "\\Magento\\Framework\\App\\ResourceConnection"),
   ("core/session", "\\Magento\\Framework\\Session\\SessionManager"),
   ("core/store", "\\Magento\\Store\\Model\\Store"),
   ("core/translate", "\\Magento\\Framework\\TranslateInterface"),
   ("core/url", "\\Magento\\Framework\\UrlInterface"),
   ("core/website", "\\Magento\\Store\\Model\\Website"),
   ("customer/session", "\\Magento\\Customer\\Model\\Session"),
   ("sales/quote", "\\Magento\\Quote\\Model\\Quote"),
   ("sales/quote_address", "\\Magento\\Quote\\Model\\Quote\\Address"),
   ("sales/quote_item", "\\Magento\\Quote\\Model\\Quote\\Item")]

/-- Helpers of the core module, which has no counterpart of its own. -/
def builtinHelpers : List (String × String) :=
  [("core", "\\Magento\\Framework\\Pricing\\Helper\\Data"),
   ("core/data", "\\Magento\\Framework\\Pricing\\Helper\\Data"),
   ("core/http", "\\Magento\\Framework\\HTTP\\Header"),
   ("core/string", "\\Magento\\Framework\\Stdlib\\StringUtils"),
   ("core/url", "\\Magento\\Framework\\Url\\Helper\\Data")]

/-! ## §2. Tables and their extension. -/

inductive AliasKind where
  | model | resourceModel | helper
  deriving Repr, DecidableEq

/-- Where the classes of a kind live inside a module's namespace. -/
def AliasKind.layer : AliasKind → String
  | .model => "Model"
  | .resourceModel => "Model\\ResourceModel"
  | .helper => "Helper"

/-- Model classes by alias and namespaces by module. Of two entries with one key the first counts. -/
structure AliasTable where
  classes : List (String × String)
  modules : List (String × String)
  deriving Repr, DecidableEq

inductive AliasError where
  | invalidClassTarget (key target : String)
  | invalidModuleTarget (module target : String)
  deriving Repr, DecidableEq

def AliasError.message : AliasError → String
  | .invalidClassTarget key target =>
    "class alias `" ++ key ++ "` must map to a fully-qualified class name, got `" ++ target ++ "`"
  | .invalidModuleTarget key target =>
    "module alias `" ++ key ++ "` must map to `Vendor\\Module`, got `" ++ target ++ "`"

/-- The form in which aliases and module names are compared. -/
def aliasKey (s : String) : String := (Text.trim s).toLower

namespace AliasTable

def builtin : AliasTable := ⟨builtinClasses, builtinModules⟩

/-- Names the class of a model outright. -/
def addClass (t : AliasTable) (key target : String) : Except AliasError AliasTable :=
  if Php.isQualifiedClassName target then .ok { t with classes := (aliasKey key, target) :: t.classes }
  else .error (.invalidClassTarget key target)

def addModule (t : AliasTable) (key target : String) : Except AliasError AliasTable :=
  if Php.isModuleNamespace target then .ok { t with modules := (aliasKey key, target) :: t.modules }
  else .error (.invalidModuleTarget key target)

def ofSettings (s : Settings.Migrate) : Except AliasError AliasTable := do
  let withModules ← s.moduleAliases.foldlM (fun t (key, target) => t.addModule key target) builtin
  s.classAliases.foldlM (fun t (key, target) => t.addClass key target) withModules

/-- The namespace of a module; white space around the name counts here. -/
def moduleNamespace? (t : AliasTable) (module : String) : Option String :=
  t.modules.lookup module.toLower

/-! ## §3. Resolution. -/

/-- `product_compare_item` as a class path: `Product\Compare\Item`. Every part is ASCII letters and
digits, and the first character is no digit. -/
def conventionPath? (path : List Char) : Option (List Char) :=
  let parts := Text.split '_' path
  if parts.all fun part => !part.isEmpty && part.all Char.isAlphanum then
    let capitalised := parts.map fun
      | [] => []
      | c :: cs => c.toUpper :: cs
    let joined := Text.joinWith ['\\'] capitalised
    if joined.head?.any Char.isDigit then none else some joined
  else none

/-- The module and the path that a normalised alias names; a helper may be named by its module. -/
def aliasParts? (kind : AliasKind) (key : List Char) : Option (List Char × List Char) :=
  match Text.splitOnce? '/' key, kind with
  | some parts, _ => some parts
  | none, .helper => some (key, ['d', 'a', 't', 'a'])
  | none, _ => none

/-- The class outside the naming convention that a normalised alias stands for. -/
def named? (t : AliasTable) (kind : AliasKind) (key : String) : Option String :=
  match kind with
  | .model => t.classes.lookup key
  | .helper => builtinHelpers.lookup key
  | .resourceModel => none

/-- The class that the naming convention gives a normalised alias. -/
def byConvention? (t : AliasTable) (kind : AliasKind) (key : String) : Option String := do
  let (module, path) ← aliasParts? kind key.toList
  let ns ← t.moduleNamespace? (String.ofList module)
  let path ← conventionPath? path
  return "\\" ++ ns ++ "\\" ++ kind.layer ++ "\\" ++ String.ofList path

/-- The fully-qualified class that an alias stands for; `none` when the module is unknown or the alias
malformed. -/
def resolve? (t : AliasTable) (kind : AliasKind) (key : String) : Option String :=
  let key := aliasKey key
  (t.named? kind key).orElse fun _ => t.byConvention? kind key

end AliasTable

end MageUplift.Magento
