import MethodFlow.Text.Decimal
import MethodFlow.Text.Quoted

/-!
What can be wrong with the configuration of a run: the causes, and their wording.
-/

namespace MethodFlow

inductive ConfigError
  | invalidId (spec : String)
  /-- An option that is not of the form `key:value`. -/
  | malformedOption (item id : String)
  /-- An analysis is requested that is not registered. -/
  | unknownAnalysis (id : String) (known : List String)
  | configuredTwice (id : String)
  /-- An analysis is required that is not registered. -/
  | unregistered (id : String)
  /-- The ids along a cycle of requirements; the first comes again at the end. -/
  | cycle (ids : List String)
  | unknownStrategy (shown : String)
  /-- An analysis without an id is registered. -/
  | noId (name : String)
  | alreadyRegistered (id : String)
  | noMethod (shown : String)
  /-- An integer is too long to be read or to be written. -/
  | overlong (e : Text.Overlong)
  deriving DecidableEq

instance : MonadLift (Except Text.Overlong) (Except ConfigError) := ⟨Except.mapError .overlong⟩

namespace ConfigError

def message : ConfigError → String
  | invalidId spec => "invalid analysis id in " ++ Text.quoted spec
  | malformedOption item id =>
    "malformed option " ++ Text.quoted item ++ " for analysis " ++ Text.quoted id ++
      "; expected key:value"
  | unknownAnalysis id known =>
    "unknown analysis " ++ Text.quoted id ++ " (known: " ++ ", ".intercalate known ++ ")"
  | configuredTwice id => "analysis " ++ Text.quoted id ++ " configured twice"
  | unregistered id => "unknown analysis " ++ Text.quoted id
  | cycle ids => "analysis dependency cycle: " ++ " -> ".intercalate ids
  | unknownStrategy shown =>
    "unknown worklist strategy " ++ shown ++ " (expected one of: fifo, lifo)"
  | noId name => name ++ " has no ID"
  | alreadyRegistered id => "analysis id " ++ Text.quoted id ++ " is already registered"
  | noMethod shown => "no method named " ++ shown
  | overlong e => e.message

end ConfigError

end MethodFlow
