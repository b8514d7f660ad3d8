/-
# TacticEngine.Native.Codec -- native values as terms.

`encode` writes a value as a term and never fails; `decode` reads a term back, seeing through
annotations and ascriptions, and has no answer for a term of another shape.  Structured values are
written with constructors, native ones are embedded as objects, and native tactics become steps
without a name in the language.  Every object and step that is written gets an identity of its own,
except a value of the host that is only passed on: it keeps the one it has.
-/
import TacticEngine.Native.Content

namespace TacticEngine.Native

variable {κ α : Type}

/-! ## Names -/

namespace Names

/-- The unit type. -/
def unit := "Prims.unit"
/-- The type of truth values. -/
def bool := "Prims.bool"
/-- The type of integers. -/
def int := "Prims.int"
/-- The type of natural numbers. -/
def nat := "Prims.nat"
/-- The type of strings. -/
def string := "Prims.string"
/-- The type of terms. -/
def term := "Tac.term"
/-- The type of lists. -/
def list := "Prims.list"
/-- The constructor of a nonempty list. -/
def cons := "Prims.Cons"
/-- The constructor of the empty list. -/
def nil := "Prims.Nil"
/-- The type of optional values. -/
def option := "Prims.option"
/-- The constructor of a value that is there. -/
def some := "Prims.Some"
/-- The constructor of no value. -/
def none := "Prims.None"
/-- The type of pairs. -/
def tuple2 := "Prims.tuple2"
/-- The constructor of pairs. -/
def mkTuple2 := "Prims.Mktuple2"
/-- The type of proof states. -/
def proofState := "Tac.proofstate"
/-- The type of goals. -/
def goal := "Tac.goal"
/-- The type of environments. -/
def env := "Tac.env"
/-- The type of exceptions. -/
def exn := "Prims.exn"
/-- The constructor of a failure on purpose. -/
def tacticFailure := "Tac.TacticFailure"
/-- The type of outcomes. -/
def result := "Tac.result"
/-- The constructor of a success. -/
def success := "Tac.Result.Success"
/-- The constructor of a failure. -/
def failed := "Tac.Result.Failed"
/-- The effect of metaprograms. -/
def tac := "Tac.tac"
/-- The type of functions. -/
def arrow := "Tac.arrow"
/-- The constant that stands for an unfinished proof. -/
def unfinished := "Prims.admit"
/-- The name of the step that a native tactic becomes. -/
def nativeTactic := "<native tactic>"

end Names

/-- The type of metaprograms from one type to another. -/
def tacticType {β σ : Type} (a r : TacticEngine.Term β σ) : TacticEngine.Term β σ :=
  (Term.const Names.arrow).apps [a, (Term.const Names.tac).apps [r]]

namespace Codec

/-- The type of the terms that values are written as. -/
def type {β σ : Type} : Codec κ → TacticEngine.Term β σ
  | unit => .const Names.unit
  | bool => .const Names.bool
  | int => .const Names.int
  | size => .const Names.nat
  | string => .const Names.string
  | term => .const Names.term
  | state => .const Names.proofState
  | goal => .const Names.goal
  | env => .const Names.env
  | failure => .const Names.exn
  | list c => (Term.const Names.list).apps [c.type]
  | option c => (Term.const Names.option).apps [c.type]
  | pair a b => (Term.const Names.tuple2).apps [a.type, b.type]
  | outcome c => (Term.const Names.result).apps [c.type]
  | function a r _ => tacticType a.type r.type
  | thunk r _ => (Term.const Names.tac).apps [r.type]

/-- A codec as it is shown. -/
def display (c : Codec κ) : String :=
  "Codec(" ++ (c.type : TacticEngine.Term Unit Unit).display ++ ")"

/-- The values that a codec writes. -/
@[reducible]
def Val : Codec κ → Type
  | unit => Unit
  | bool => Bool
  | int => Int
  | size => Nat
  | string => String
  | term => Term κ
  | state => ProofState κ
  | goal => Goal κ
  | env => Env κ
  | failure => Failure κ
  | list c => List c.Val
  | option c => Option c.Val
  | pair a b => a.Val × b.Val
  | outcome c => Outcome κ c.Val
  | function .. | thunk .. => NativeTactic κ

/-- Values for a list of codecs, one each. -/
@[reducible]
def Vals : List (Codec κ) → Type
  | [] => Unit
  | c :: cs => c.Val × Vals cs

/-! ## Writing -/

/-- An identity that is not in use. -/
def newId : StateM Nat Nat := fun n => (n, n + 1)

/-- Embed a native value. -/
def embed (kind : BlobKind) (content : Content κ) : StateM Nat (Term κ) :=
  return .blob ⟨kind, ⟨← newId, content⟩⟩

/-- Write a reason of failure. -/
def encodeFailure : Failure κ → StateM Nat (Term κ)
  | .issue e => embed .error (.issue e)
  | .message text => return (Term.ctor Names.tacticFailure).apps [.lit (.string text)]
  | .exception t => return t
  | .foreign payload => return .blob ⟨.foreign, payload⟩

/-- Write a list, given how to write its elements. -/
def encodeList (element : α → StateM Nat (Term κ)) : List α → StateM Nat (Term κ)
  | [] => return .ctor Names.nil
  | v :: vs => return (Term.ctor Names.cons).apps [← element v, ← encodeList element vs]

/-- A native tactic as a step: it takes the arguments and the proof state. -/
def tacticStep (id : Nat) (name : String) (args : List (Codec κ)) (result : Codec κ)
    (f : NativeTactic κ) : Step κ :=
  { id, name, arity := args.length + 1, flags := { autoReflect := true },
    body := .tactic args result f }

/-- A pure function of the host as a step. -/
def totalStep (id : Nat) (name : String) (args : List (Codec κ)) (result : Codec κ)
    (label : κ) : Step κ :=
  { id, name, arity := args.length, flags := { strongReductionOk := true },
    body := .total args result label }

/-- Write a value. -/
def encode : (c : Codec κ) → c.Val → StateM Nat (Term κ)
  | unit, _ => return .lit .unit
  | bool, b => return .lit (.bool b)
  | int, n => return .lit (.int n)
  | size, n => return .lit (.int n)
  | string, s => return .lit (.string s)
  | term, t => return t
  | state, s => embed .proofState (.state s)
  | goal, g => embed .goal (.goal g)
  | env, e => embed .env (.env e)
  | failure, f => encodeFailure f
  | list c, vs => encodeList c.encode vs
  | option _, none => return .ctor Names.none
  | option c, some v => return (Term.ctor Names.some).apps [← c.encode v]
  | pair a b, (x, y) => return (Term.ctor Names.mkTuple2).apps [← a.encode x, ← b.encode y]
  | outcome c, .success v s =>
    return (Term.ctor Names.success).apps [← c.encode v, ← embed .proofState (.state s)]
  | outcome _, .failed e s =>
    return (Term.ctor Names.failed).apps [← encodeFailure e, ← embed .proofState (.state s)]
  | function a r _, f => return .native (tacticStep (← newId) Names.nativeTactic [a] r f)
  | thunk r _, f => return .native (tacticStep (← newId) Names.nativeTactic [] r f)

/-- Write values, one for each codec. -/
def encodeAll : (cs : List (Codec κ)) → Vals cs → StateM Nat (List (Term κ))
  | [], _ => return []
  | c :: cs, (v, vs) => return (← c.encode v) :: (← encodeAll cs vs)

/-! ## Reading -/

/-- Sizes are below this bound. -/
def sizeLimit : Int := UInt64.size

/-- Read a literal. -/
def decodeLit (read : Literal → Option α) (t : Term κ) : Option α := t.asLit?.bind read

/-- Read an embedded value of one kind. -/
def decodeBlob (kind : BlobKind) (read : Content κ → Option α) (t : Term κ) : Option α :=
  (t.asBlob? kind).bind fun b => read b.object.content

/-- Read a proof state. -/
def decodeState (t : Term κ) : Option (ProofState κ) :=
  decodeBlob .proofState (fun | .state s => some s | _ => none) t

/-- Read a reason of failure.  What is none of the other forms is an exception; only a blob that
announces an issue and holds none has no meaning. -/
def decodeFailure (t : Term κ) : Option (Failure κ) :=
  match t.strip with
  | .blob ⟨.error, ⟨_, content⟩⟩ =>
    match content with
    | .issue e => some (.issue e)
    | _ => none
  | .blob ⟨.foreign, payload⟩ => some (.foreign payload)
  | t =>
    match t.asCtorApp? with
    | some (c, [m]) =>
      match m.asLit? with
      | some (.string text) =>
        if c = Names.tacticFailure then some (.message text) else some (.exception t)
      | _ => some (.exception t)
    | _ => some (.exception t)

/-- Read a list, given how to read its elements: a chain of `cons` that ends in `nil`, with wrappers
anywhere around its links and their heads. -/
def decodeList (element : Term κ → Option α) : Term κ → Option (List α)
  | .annotated t _ => decodeList element t
  | .ascribed t _ => decodeList element t
  | .ctor c => if c = Names.nil then some [] else none
  | .app h [] =>
    match h.strip with
    | .ctor c => if c = Names.nil then some [] else none
    | _ => none
  | .app h [hd, tl] =>
    match h.strip with
    | .ctor c =>
      if c = Names.cons then do
        let v ← element hd
        let vs ← decodeList element tl
        return v :: vs
      else none
    | _ => none
  | _ => none

/-- Read a value. -/
def decode : (c : Codec κ) → Term κ → Option c.Val
  | unit, t => decodeLit (fun | .unit => some () | _ => none) t
  | bool, t => decodeLit (fun | .bool b => some b | _ => none) t
  | int, t => decodeLit (fun | .int n => some n | _ => none) t
  | size, t =>
    decodeLit (fun | .int n => if 0 ≤ n ∧ n < sizeLimit then some n.toNat else none | _ => none) t
  | string, t => decodeLit (fun | .string s => some s | _ => none) t
  | term, t => some t.strip
  | state, t => decodeState t
  | goal, t => decodeBlob .goal (fun | .goal g => some g | _ => none) t
  | env, t => decodeBlob .env (fun | .env e => some e | _ => none) t
  | failure, t => decodeFailure t
  | list c, t => decodeList c.decode t
  | option c, t =>
    match t.asCtorApp? with
    | some (k, []) => if k = Names.none then some none else none
    | some (k, [v]) => if k = Names.some then (c.decode v).map some else none
    | _ => none
  | pair a b, t =>
    match t.asCtorApp? with
    | some (k, [x, y]) =>
      if k = Names.mkTuple2 then do
        let x ← a.decode x
        let y ← b.decode y
        return (x, y)
      else none
    | _ => none
  | outcome c, t =>
    match t.asCtorApp? with
    | some (k, [v, s]) =>
      if k = Names.success then do
        let v ← c.decode v
        let s ← decodeState s
        return .success v s
      else if k = Names.failed then do
        let e ← decodeFailure v
        let s ← decodeState s
        return .failed e s
      else none
    | _ => none
  | function _ _ engine, t => some (.metaprogram engine t.strip)
  | thunk _ engine, t => some (.metaprogram engine t.strip)

/-- Read as many values as there are codecs, from as many terms. -/
def decodeAll : (cs : List (Codec κ)) → List (Term κ) → Option (Vals cs)
  | [], [] => some ()
  | c :: cs, t :: ts => do
    let v ← c.decode t
    let vs ← decodeAll cs ts
    return (v, vs)
  | _, _ => none

/-- Read the arguments of a native tactic: values for the codecs, then a proof state. -/
def decodeCall (cs : List (Codec κ)) (ts : List (Term κ)) :
    Option (Vals cs × ProofState κ) :=
  match ts.getLast? with
  | none => none
  | some last => do
    let vs ← decodeAll cs ts.dropLast
    let s ← decodeState last
    return (vs, s)

end Codec

end TacticEngine.Native
