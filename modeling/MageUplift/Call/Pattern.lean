/-!
# The catalog of legacy calls

A legacy call is a static call on `Mage`. A `Pattern` is one recognised shape of such a call; the shapes
are tried in the order of `catalog`, and the first that fits wins.
-/

namespace MageUplift.Call

/-- A recognised shape of a legacy call. -/
inductive Pattern where
  /-- `Mage::helper('x')->__(` becomes `__(`. -/
  | helperTranslate
  /-- `Mage::helper('x')` becomes `$this->xHelper`. -/
  | helper
  /-- `Mage::getModel('a/b')` becomes `$this->abFactory->create()`. -/
  | getModel
  /-- `Mage::getSingleton('a/b')` becomes `$this->ab`. -/
  | getSingleton
  /-- `Mage::getResourceModel('a/b')` becomes a call of the resource model's factory. -/
  | getResourceModel
  /-- `Mage::getStoreConfig(path)` becomes `$this->scopeConfig->getValue(path, SCOPE_STORE)`. -/
  | getStoreConfig
  /-- `Mage::getStoreConfigFlag(path)` becomes `$this->scopeConfig->isSetFlag(path, SCOPE_STORE)`. -/
  | getStoreConfigFlag
  /-- `Mage::dispatchEvent` becomes `$this->eventManager->dispatch`. -/
  | dispatchEvent
  /-- `Mage::registry`, `Mage::register` and `Mage::unregister`. -/
  | registry
  /-- `Mage::log` and `Mage::logException`. -/
  | log
  /-- `Mage::throwException(msg)` becomes `throw new LocalizedException(__(msg))`. -/
  | throwException
  /-- `Mage::app()->getStore` and the other getters of the store manager. -/
  | appStore
  deriving Repr, DecidableEq

namespace Pattern

def catalog : List Pattern :=
  [.helperTranslate, .helper, .getModel, .getSingleton, .getResourceModel, .getStoreConfig,
   .getStoreConfigFlag, .dispatchEvent, .registry, .log, .throwException, .appStore]

def name : Pattern → String
  | .helperTranslate => "helper-translate"
  | .helper => "helper"
  | .getModel => "get-model"
  | .getSingleton => "get-singleton"
  | .getResourceModel => "get-resource-model"
  | .getStoreConfig => "get-store-config"
  | .getStoreConfigFlag => "get-store-config-flag"
  | .dispatchEvent => "dispatch-event"
  | .registry => "registry"
  | .log => "log"
  | .throwException => "throw-exception"
  | .appStore => "app-store"

/-- The static methods of `Mage` that a pattern starts with. -/
def methods : Pattern → List String
  | .helperTranslate | .helper => ["helper"]
  | .getModel => ["getModel"]
  | .getSingleton => ["getSingleton"]
  | .getResourceModel => ["getResourceModel"]
  | .getStoreConfig => ["getStoreConfig"]
  | .getStoreConfigFlag => ["getStoreConfigFlag"]
  | .dispatchEvent => ["dispatchEvent"]
  | .registry => ["registry", "register", "unregister"]
  | .log => ["log", "logException"]
  | .throwException => ["throwException"]
  | .appStore => ["app"]

theorem mem_catalog (p : Pattern) : p ∈ catalog := by
  cases p <;> decide

end Pattern

end MageUplift.Call
