import MageUplift.Call.Invocation
import MageUplift.Call.Shape
import MageUplift.Magento.ClassAlias
import MageUplift.Magento.VariableName

/-!
# Recognising legacy calls

`matchAt?` tries every pattern of the catalog at one token. It only reads the stream: the invocation it
answers carries the edits to make later.

Models and helpers are named by an alias that an `AliasTable` resolves. Calls of a fixed service become
calls on an injected collaborator, and store configuration is read with an explicit scope.
-/

namespace MageUplift.Call

open Php Magento

/-! ## §1. The services that calls are moved to. -/

def scopeConfig : Collaborator :=
  ⟨"scopeConfig", "\\Magento\\Framework\\App\\Config\\ScopeConfigInterface"⟩

def eventManager : Collaborator := ⟨"eventManager", "\\Magento\\Framework\\Event\\ManagerInterface"⟩

def registry : Collaborator := ⟨"registry", "\\Magento\\Framework\\Registry"⟩

def logger : Collaborator := ⟨"logger", "\\Psr\\Log\\LoggerInterface"⟩

def storeManager : Collaborator := ⟨"storeManager", "\\Magento\\Store\\Model\\StoreManagerInterface"⟩

def localizedException : String := "\\Magento\\Framework\\Exception\\LocalizedException"

/-- The scope that a read of the store configuration names. -/
def scopeStore : String := "\\Magento\\Store\\Model\\ScopeInterface::SCOPE_STORE"

/-- The getters that the store manager took over from the application object. -/
def storeGetters : List String :=
  ["getStore", "getStores", "getWebsite", "getWebsites", "getDefaultStoreView"]

def Collaborator.property (c : Collaborator) : String := "$this->" ++ c.name

/-! ## §2. Calls with an alias. -/

def matchHelperTranslate? (s : TokenStream) (head : Head) : Option Invocation := do
  let arg ← literalArgument? s head.method
  let arrow ← s.followedBy? arg.close .arrow
  let translate ← s.followedBy? arrow .identifier
  if s.text translate = "__" then
    let _ ← s.followedBy? translate .leftParen
    return {
      pattern := .helperTranslate
      span := ⟨head.mage, translate + 1⟩
      headEnd := translate + 1
      legacy := "Mage::helper('" ++ arg.value ++ "')->__"
      resolvedType := "__"
      collaborator := none
      modern := "__"
      tail := none }
  else none

def matchHelper? (table : AliasTable) (s : TokenStream) (head : Head) : Option Invocation := do
  let arg ← literalArgument? s head.method
  let cls ← table.resolve? .helper arg.value
  let helper : Collaborator := ⟨helperVariableName cls, cls⟩
  return {
    pattern := .helper
    span := ⟨head.mage, arg.close + 1⟩
    headEnd := arg.close + 1
    legacy := "Mage::helper('" ++ arg.value ++ "')"
    resolvedType := cls
    collaborator := some helper
    modern := helper.property
    tail := none }

/-- A model by its alias: the injected object itself, or, with `factory`, what its injected factory
creates. -/
def matchModel? (table : AliasTable) (pattern : Pattern) (kind : AliasKind) (factory : Bool)
    (s : TokenStream) (head : Head) : Option Invocation := do
  let arg ← literalArgument? s head.method
  let cls ← table.resolve? kind arg.value
  let injected := if factory then cls ++ "Factory" else cls
  let model : Collaborator := ⟨variableName injected, injected⟩
  return {
    pattern
    span := ⟨head.mage, arg.close + 1⟩
    headEnd := arg.close + 1
    legacy := "Mage::" ++ s.text head.method ++ "('" ++ arg.value ++ "')"
    resolvedType := injected
    collaborator := some model
    modern := if factory then model.property ++ "->create()" else model.property
    tail := none }

/-! ## §3. Calls of a service. -/

/-- A call whose head alone changes: `Mage::method` becomes `$this->service->target`. -/
def matchService? (pattern : Pattern) (method : String) (service : Collaborator) (target : String)
    (s : TokenStream) (head : Head) : Option Invocation := do
  let _ ← s.followedBy? head.method .leftParen
  return {
    pattern
    span := ⟨head.mage, head.method + 1⟩
    headEnd := head.method + 1
    legacy := "Mage::" ++ method
    resolvedType := service.type
    collaborator := some service
    modern := service.property ++ "->" ++ target
    tail := none }

/-- A read of the store configuration. The scope is named after the path; a store that is given as a
second argument moves behind it. Other argument lists are left alone. -/
def matchStoreConfig? (pattern : Pattern) (getter : String) (s : TokenStream) (head : Head) :
    Option Invocation := do
  let args ← arguments? s head.method
  if args.isEmpty s then none
  else
    let tail : CodeEdit ← match args.commas with
      | [] => some ⟨.empty args.close, ", " ++ scopeStore⟩
      | [comma] => some ⟨⟨comma, comma + 1⟩, ", " ++ scopeStore ++ ","⟩
      | _ => none
    return {
      pattern
      span := ⟨head.mage, args.close + 1⟩
      headEnd := args.left + 1
      legacy := "Mage::" ++ s.text head.method
      resolvedType := scopeConfig.type
      collaborator := some scopeConfig
      modern := scopeConfig.property ++ "->" ++ getter ++ "("
      tail := some tail }

def matchAppStore? (s : TokenStream) (head : Head) : Option Invocation := do
  let left ← s.followedBy? head.method .leftParen
  let close ← s.followedBy? left .rightParen
  let arrow ← s.followedBy? close .arrow
  let member ← s.followedBy? arrow .identifier
  let getter ← storeGetters.find? (sameWord · (s.text member))
  return {
    pattern := .appStore
    span := ⟨head.mage, member + 1⟩
    headEnd := member + 1
    legacy := "Mage::app()->" ++ getter
    resolvedType := storeManager.type
    collaborator := some storeManager
    modern := storeManager.property ++ "->" ++ getter
    tail := none }

/-! ## §4. Exceptions. -/

/-- Where the name of the function for texts in the user's language ends, if the token at `i` starts such a
call. -/
def localizedEnd? (s : TokenStream) (i : Nat) : Option Nat := do
  let t ← s.get? i
  if t.isWord "__" then return i + 1
  else return (← matchHelperTranslate? s (← head? s i)).span.stop

/-- The argument list is one call of that function and nothing more. -/
def isLocalized (s : TokenStream) (args : Arguments) : Bool :=
  ((s.nextSignificant? (args.left + 1)).bind fun first => do
    let stop ← localizedEnd? s first
    let left ← s.followedBy? (stop - 1) .leftParen
    let close ← s.matchingClose? left
    s.nextSignificant? (close + 1)) == some args.close

/-- `Mage::throwException`, whose message is translated unless it already is. -/
def matchThrowException? (s : TokenStream) (head : Head) : Option Invocation := do
  let args ← arguments? s head.method
  if args.isEmpty s then none
  else
    let translated := isLocalized s args
    let raise := "throw new " ++ localizedException ++ "("
    return {
      pattern := .throwException
      span := ⟨head.mage, args.close + 1⟩
      headEnd := args.left + 1
      legacy := "Mage::throwException"
      resolvedType := localizedException
      collaborator := none
      modern := if translated then raise else raise ++ "__("
      tail := if translated then none else some ⟨.empty args.close, ")"⟩ }

/-! ## §5. The catalog. -/

/-- A call of the pattern, given its head and the method name as the pattern spells it. -/
def Pattern.matchHead? (table : AliasTable) (s : TokenStream) (head : Head) (method : String) :
    Pattern → Option Invocation
  | .helperTranslate => matchHelperTranslate? s head
  | .helper => matchHelper? table s head
  | .getModel => matchModel? table .getModel .model true s head
  | .getSingleton => matchModel? table .getSingleton .model false s head
  | .getResourceModel => matchModel? table .getResourceModel .resourceModel true s head
  | .getStoreConfig => matchStoreConfig? .getStoreConfig "getValue" s head
  | .getStoreConfigFlag => matchStoreConfig? .getStoreConfigFlag "isSetFlag" s head
  | .dispatchEvent => matchService? .dispatchEvent method eventManager "dispatch" s head
  | .registry => matchService? .registry method Call.registry method s head
  | .log =>
    matchService? .log method logger (if method = "logException" then "critical" else "debug") s head
  | .throwException => matchThrowException? s head
  | .appStore => matchAppStore? s head

/-- The call of the pattern with this head. Method names are compared without regard to ASCII case. -/
def Pattern.match? (table : AliasTable) (s : TokenStream) (head : Head) (p : Pattern) :
    Option Invocation :=
  (p.methods.find? (sameWord · (s.text head.method))).bind fun method => p.matchHead? table s head method

/-- The legacy call whose `Mage` is the token at `i`. -/
def matchAt? (table : AliasTable) (s : TokenStream) (i : Nat) : Option Invocation :=
  (head? s i).bind fun head => Pattern.catalog.findSome? fun p => p.match? table s head

end MageUplift.Call
