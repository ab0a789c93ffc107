import MageUplift.Php.ClassName
import MageUplift.Settings.Basic
import MageUplift.Text.Quoted

/-!
# Problems of settings

Settings that are well typed may still make no sense. `Settings.problems` lists everything that is wrong,
in a fixed order: the indent, the class aliases and the module aliases in the order of their keys, the
extensions, the layout areas.
-/

namespace MageUplift.Settings

inductive Problem where
  | indentNotBlank (value : String)
  | classAliasNotQualified (key target : String)
  | classAliasMalformed (key : String)
  | moduleAliasInvalid (key target : String)
  | emptyExtension
  | emptyArea (area : String)
  deriving Repr, DecidableEq

def Problem.message : Problem → String
  | .indentNotBlank value =>
    "migrate.indent must be non-empty spaces or tabs, got " ++ Text.quoted value
  | .classAliasNotQualified key target =>
    "migrate.class_aliases." ++ Text.quoted key
      ++ " must map to a fully-qualified class name (starting with `\\`), got " ++ Text.quoted target
  | .classAliasMalformed key =>
    "migrate.class_aliases key " ++ Text.quoted key ++ " must look like `module/path`"
  | .moduleAliasInvalid key target =>
    "migrate.module_aliases." ++ Text.quoted key ++ " must map to `Vendor\\Module`, got "
      ++ Text.quoted target
  | .emptyExtension => "migrate.extensions must not contain empty entries"
  | .emptyArea area => "layout.areas." ++ area ++ " must list at least one package"

def isIndent (s : String) : Bool := !s.isEmpty && s.toList.all fun c => c == ' ' || c == '\t'

def isClassAlias (key : String) : Bool :=
  match Text.splitOnce? '/' key.toList with
  | some (module, path) => !module.isEmpty && !path.isEmpty
  | none => false

def bareExtension (extension : String) : String :=
  String.ofList (extension.toList.dropWhile (· == '.'))

def Migrate.problems (m : Migrate) : List Problem :=
  (if isIndent m.indent then [] else [.indentNotBlank m.indent])
    ++ m.classAliases.flatMap (fun (key, target) =>
      (if isClassAlias key then [] else [.classAliasMalformed key])
        ++ (if Php.isQualifiedClassName target then [] else [.classAliasNotQualified key target]))
    ++ m.moduleAliases.flatMap (fun (key, target) =>
      if !key.isEmpty && Php.isModuleNamespace target then [] else [.moduleAliasInvalid key target])
    ++ (if m.extensions.any fun e => (bareExtension e).isEmpty then [.emptyExtension] else [])

def Layout.problems (l : Layout) : List Problem :=
  l.areas.filterMap fun (area, packages) => if packages.isEmpty then some (.emptyArea area) else none

end MageUplift.Settings

namespace MageUplift

def Settings.problems (s : Settings) : List Settings.Problem := s.migrate.problems ++ s.layout.problems

end MageUplift
