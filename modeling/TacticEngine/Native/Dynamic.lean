/-
# TacticEngine.Native.Dynamic -- values that carry their codec.

Where the codecs of a piece of native code are known only when it is put together, its arguments and
its result travel with their codecs.  A value may be used under another codec only if that is the same
one.  `NativeCode` is native code in this form, and `Host.ofCode` is the host that it makes up.
-/
import TacticEngine.Native.Host

namespace TacticEngine.Native

open Codec (Vals)

variable {κ : Type}

/-- A value with its codec. -/
structure Dyn (κ : Type) where
  /-- The codec. -/
  codec : Codec κ
  /-- The value. -/
  val : codec.Val

/-- Some value of a codec, for want of a better one. -/
def Codec.blank : (c : Codec κ) → c.Val
  | .unit => ()
  | .bool => false
  | .int => (0 : Int)
  | .size => (0 : Nat)
  | .string => ""
  | .term => Term.unit
  | .state => { mainContext := { moduleName := "" }, entryRange := {} }
  | .goal => { env := { moduleName := "" }, witness := 0, irrelevant := false, label := "" }
  | .env => { moduleName := "" }
  | .failure => .message ""
  | .list _ => []
  | .option _ => none
  | .pair a b => (a.blank, b.blank)
  | .outcome _ => .failed (.message "") { mainContext := { moduleName := "" }, entryRange := {} }
  | .function _ _ engine => .metaprogram engine .unit
  | .thunk _ engine => .metaprogram engine .unit

namespace Dyn

/-- The unit value. -/
def unit : Dyn κ := ⟨.unit, ()⟩

/-- The value under a codec, if that is its own. -/
def as? [DecidableEq κ] (d : Dyn κ) (c : Codec κ) : Option c.Val :=
  if h : d.codec = c then some (h ▸ d.val) else none

/-- The value under a codec, which should be its own. -/
def as [DecidableEq κ] (d : Dyn κ) (c : Codec κ) : c.Val := (d.as? c).getD c.blank

/-- Values with their codecs. -/
def ofVals : (cs : List (Codec κ)) → Vals cs → List (Dyn κ)
  | [], _ => []
  | c :: cs, (v, vs) => ⟨c, v⟩ :: ofVals cs vs

end Dyn

/-- Native code on values with codecs; what a piece of code does not provide never applies. -/
structure NativeCode (κ : Type) where
  /-- The name under which entries into the code are journalled. -/
  name : String := ""
  /-- A list of steps. -/
  natives : List (Step κ) := []
  /-- A rule on terms. -/
  rule : Env κ → List (Term κ) → Program κ (Option (Term κ)) := fun _ _ => return none
  /-- What the rule does to values instead. -/
  direct : Option (List (Value κ) → Option (Value κ)) := none
  /-- A pure function. -/
  total : List (Dyn κ) → Option (Dyn κ) := fun _ => none
  /-- A native tactic, which may call others of its host. -/
  tactic : Host κ → List (Dyn κ) → ProofState κ → Program κ (Outcome κ (Dyn κ)) :=
    fun _ _ s => return .fail "not a tactic" s

/-- The host that native code makes up.  Its tactics may call each other at most `depth` deep; past
that the machine is too small. -/
def Host.ofCode [DecidableEq κ] (code : κ → NativeCode κ) : (depth : Nat) → Host κ
  | 0 =>
    { name := fun k => (code k).name
      natives := fun k => (code k).natives
      rule := fun k => (code k).rule
      direct := fun k => (code k).direct
      total := fun k as r vs => (((code k).total (Dyn.ofVals as vs)).map (·.as r)).getD r.blank
      tactic := fun _ _ _ _ _ => .overflow }
  | depth + 1 =>
    { Host.ofCode code depth with
      tactic := fun k as r vs s => do
        let o ← (code k).tactic (Host.ofCode code depth) (Dyn.ofVals as vs) s
        return o.map (·.as r) }

end TacticEngine.Native
