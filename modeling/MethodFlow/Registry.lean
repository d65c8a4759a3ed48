import MethodFlow.ConfigError
import MethodFlow.DeadCode
import MethodFlow.OrderedMap

/-!
Registered analyses: what each one requires to be done before, and what it does.
-/

namespace MethodFlow

/-- What an analysis does: one of the built-in tasks, or any function of a method. -/
inductive Task (α : Type)
  | cfg
  | constprop
  | livevar
  | deadcode
  | custom (f : Method → α)

structure Analysis (α : Type) where
  requires : List String
  task : Task α

abbrev Registry (α : Type) := OrderedMap String (Analysis α)

namespace Registry

variable {α : Type}

/-- The analyses that are always there. -/
def builtin : Registry α :=
  .ofList [
    ("cfg", ⟨[], .cfg⟩),
    ("constprop", ⟨["cfg"], .constprop⟩),
    ("livevar", ⟨["cfg"], .livevar⟩),
    ("deadcode", ⟨["cfg", "constprop", "livevar"], .deadcode⟩)]

/-- Adds an analysis under a new id that is not empty; `name` is what a message calls it. -/
def register (r : Registry α) (name id : String) (a : Analysis α) :
    Except ConfigError (Registry α) :=
  if id = "" then .error (.noId name)
  else if r.contains id then .error (.alreadyRegistered id)
  else .ok (r.insert id a)

/-- What an analysis requires; nothing when it is not registered. -/
def requires (r : Registry α) (id : String) : List String :=
  (r.find? id).elim [] Analysis.requires

def sortedIds (r : Registry α) : List String :=
  r.keys.mergeSort fun a b => decide (a ≤ b)

end Registry

end MethodFlow
