import MethodFlow.Config
import MethodFlow.Registry

/-!
Plans: the requested analyses and everything they require, each after what it requires. The order
is that of a depth-first walk over the requests.
-/

namespace MethodFlow

/-- A task with what its configuration decides. -/
inductive Job (α : Type)
  | cfg
  | constprop (order : Order)
  | livevar
  | deadcode
  | custom (f : Method → α)

structure Step (α : Type) where
  config : Config
  job : Job α

structure Plan (α : Type) where
  requested : List String
  steps : List (Step α)

namespace Plan

variable {α : Type}

/-- Adds a request to those that are known. -/
def note (r : Registry α) (known : OrderedMap String Config) (c : Config) :
    Except ConfigError (OrderedMap String Config) :=
  if !r.contains c.id then .error (.unknownAnalysis c.id r.sortedIds)
  else if known.contains c.id then .error (.configuredTwice c.id)
  else .ok (known.insert c.id c)

/-- Each requested id with its configuration, in the order of the requests. -/
def collect (r : Registry α) (configs : List Config) :
    Except ConfigError (OrderedMap String Config) :=
  configs.foldlM (note r) ∅

theorem length_erase_lt {id : String} {pending : List String} (h : id ∈ pending) :
    (pending.erase id).length < pending.length := by
  rw [List.length_erase_of_mem h]
  have := List.length_pos_of_mem h
  omega

/-- Walks to `id` and adds it to `done` after everything it requires. The walk leads through
`active`, and the registered ids that it has not met on its way are `pending`. -/
def visit (r : Registry α) (active done pending : List String) (id : String) :
    Except ConfigError (List String) :=
  if id ∈ done then .ok done
  else if id ∈ active then .error (.cycle (active.dropWhile (· ≠ id) ++ [id]))
  else if h : id ∈ pending then do
    have := length_erase_lt h
    let done ← (r.requires id).foldlM
      (fun done dep => visit r (active ++ [id]) done (pending.erase id) dep) done
    return done ++ [id]
  else .error (.unregistered id)
termination_by pending.length

/-- The requested ids and all that they require, each after what it requires. -/
def schedule (r : Registry α) (ids : List String) : Except ConfigError (List String) :=
  ids.foldlM (fun done id => visit r [] done r.keys id) []

def orderNamed (v : OptionValue) : Except ConfigError Order := do
  let text ← v.render
  let word := String.ofList ((Text.trim text.toList).map Char.toLower)
  if word = "fifo" then return .fifo
  else if word = "lifo" then return .lifo
  else throw (.unknownStrategy (← v.describe))

/-- The order that the option `strategy` asks for; without it, first come is first served. -/
def orderOf (c : Config) : Except ConfigError Order :=
  (c.option? "strategy").elim (.ok .fifo) orderNamed

/-- Sets up a task; both dataflow analyses take a strategy, of which liveness makes no use. -/
def prepare (c : Config) : Task α → Except ConfigError (Step α)
  | .cfg => .ok ⟨c, .cfg⟩
  | .constprop => do return ⟨c, .constprop (← orderOf c)⟩
  | .livevar => do
    let _ ← orderOf c
    return ⟨c, .livevar⟩
  | .deadcode => .ok ⟨c, .deadcode⟩
  | .custom f => .ok ⟨c, .custom f⟩

def prepareId (r : Registry α) (c : Config) : Except ConfigError (Step α) :=
  match r.find? c.id with
  | some a => prepare c a.task
  | none => .error (.unregistered c.id)

/-- What is to be run for a list of requests, in order; analyses that were not requested get no
options. -/
def arrange (r : Registry α) (configs : List Config) : Except ConfigError (List Config) := do
  let known ← collect r configs
  let ids ← schedule r (configs.map Config.id)
  return ids.map fun id => (known.find? id).getD (.plain id)

/-- The plan for a list of requests, with every task set up. -/
def build (r : Registry α) (configs : List Config) : Except ConfigError (Plan α) := do
  let steps ← (← arrange r configs).mapM (prepareId r)
  return ⟨configs.map Config.id, steps⟩

def configs (p : Plan α) : List Config :=
  p.steps.map Step.config

end Plan

end MethodFlow
