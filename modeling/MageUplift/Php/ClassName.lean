import MageUplift.Php.Lexeme
import MageUplift.Text.Split

/-!
# Names of classes and namespaces

A fully-qualified class name is a separator followed by identifiers with separators between them; the
namespace of a module is two identifiers, `Vendor\Module`, without a separator in front.
-/

namespace MageUplift.Php

def isIdentifier : List Char → Bool
  | [] => false
  | c :: cs => isNameStart c && cs.all isNamePart

/-- `\Vendor\Module\Path\Class`. -/
def isQualifiedClassName (name : String) : Bool :=
  match name.toList with
  | '\\' :: cs => (Text.split '\\' cs).all isIdentifier
  | _ => false

/-- `Vendor\Module`. -/
def isModuleNamespace (name : String) : Bool :=
  match Text.split '\\' name.toList with
  | [vendor, module] => isIdentifier vendor && isIdentifier module
  | _ => false

end MageUplift.Php
