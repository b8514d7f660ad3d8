/-
# TacticEngine.Proofs.Native.Transport -- terms that a metaprogram hands on as data.

A metaprogram gets a term as it is, without quotation, and hands it on as part of its result.  On the way the
term is live code: it is put for variables, matched, suspended and read back.  If it is a weak normal form and
the metaprogram only carries it along, then it comes out as it went in (`data_transported`), by
reduction even if it is open, and by compiled evaluation if it is closed.

By reduction, the rules for what is carried along say what the application is normalized to.  The machine is
compared with reduction in a setting where steps may only decline, which is lawful for any steps; as it ends
there, it ends alike with the steps that there are.
-/
import TacticEngine.Proofs.Agreement.Application
import TacticEngine.Proofs.Agreement.Declining
import TacticEngine.Proofs.Native.Comparison
import TacticEngine.Proofs.Native.Encoding

namespace TacticEngine.Native

open Codec (Vals embed)
open Reduce (Carries Normal ToNorm doesAct handing)

variable {κ : Type} {host : Host κ}

/-! ## What reductions end with -/

/-- What a run gives that lasts, the reduction ends with. -/
theorem Ends.of_lasts {r : Reduction (Content κ) (Body κ)} {m : Act κ (Term κ)}
    {F : Family (Halt (Content κ)) (World κ) (Term κ)} (hlasts : Lasts m F)
    (hF : ∀ n, evaluate host (n + 1) r = F n n) {w : World κ}
    (hres : ∀ w', m w ≠ .error .exhausted w') : Ends (fun n => evaluate host n r) w (m w) := by
  refine ⟨hres, ?_⟩
  rcases lasts_iff.mp hlasts w with ⟨w', hw'⟩ | ⟨N, hN⟩
  · exact absurd hw' (hres w')
  · exact ⟨N + 1, (congrFun (hF N) w).trans (hN N (Nat.le_refl N) N (Nat.le_refl N))⟩

section

variable {steps : StepTable (Body κ)} {env : Env κ} {t : Term κ} {as : List (Term κ)} {l : Nat}

/-- What ends although steps may only decline ends alike without the restriction. -/
theorem declining_like :
    Machine.Setting.Like (Tie.same _ _) (Likeness.equal _ _) (fun _ => True)
      (machineSetting host (interp host l).declining steps env)
      (machineSetting host (interp host l) steps env) (interp host) := by
  refine machineSetting_like_equal (fun _ _ => Iff.rfl) (fun _ => rfl) fun body ts => ?_
  by_cases h : (interp host l).Declines body env ts
  · rw [Interp.declining_of_declines h]
    exact lasts_interp host l body env ts
  · rw [Interp.declining_of_not_declines h]
    exact .mute fun _ => rfl

theorem lasts_reduce_declining (n : Nat) :
    Lasts (Reduce.norm (reduceSetting (interp host l).declining steps env) n t)
      (normalForm host .reduce steps env t) :=
  ((Reduce.alikeAt fair_same keepsArity_equal (reduceSetting_like declining_like) n).norm
    (Term.alike_equal 0 t)).imp fun _ _ h => h.eq Likeness.equal_strict

theorem lasts_compiled_declining (n : Nat) :
    Lasts (withHeap (applyCompiled (machineSetting host (interp host l).declining steps env) n t as))
      fun l n => withHeap (applyCompiled (machineSetting host (interp host l) steps env) n t as) :=
  (applyCompiled_follows fair_same keepsArity_equal declining_like (Term.alike_equal 0 t)
    (Term.alikeArgs_equal 0 as) n).imp fun _ _ h => h.eq Likeness.equal_strict

section

variable {x : Except (Halt (Content κ)) (Term κ)} {u : Term κ}

/-- What normalizing comes to by the rules, where steps may only decline, reduction ends with. -/
theorem ends_reduce (h : ToNorm (reduceSetting (interp host l) steps env).declining
      (doesAct (reduceSetting (interp host l) steps env).declining) (t.apps as) x)
    (hx : x ≠ .error .exhausted) (w : World κ) :
    ∃ res, ending res = x ∧ Ends (fun n => evaluate host n ⟨.reduce, steps, env, t, as⟩) w res := by
  obtain ⟨N, hN⟩ := h.reaches (Reduce.sure_doesAct _)
  have hend := hN N (Nat.le_refl N) w
  refine ⟨_, hend, .of_lasts (lasts_reduce_declining N) (fun n => rfl) fun w' hw' => hx ?_⟩
  exact hend.symm.trans (congrArg ending hw')

/-- What closed terms are normalized to, compiled evaluation ends with, unless a machine word is too small
for it. -/
theorem ends_compiled (hdirect : ∀ label, host.direct label = none)
    (hdefs : ∀ c b, env.unfoldable c = some b → b.Closed ∧ b.Canonical)
    (ht : t.Closed ∧ t.Canonical) (has : ∀ a ∈ as, a.Closed ∧ a.Canonical) (hne : as ≠ [])
    (h : ToNorm (reduceSetting (interp host l) steps env).declining
      (doesAct (reduceSetting (interp host l) steps env).declining) (t.apps as) (.ok u)) (w : World κ) :
    ∃ w', Ends (fun n => evaluate host n ⟨.compiled, steps, env, t, as⟩) w (.ok u w') ∨
      Ends (fun n => evaluate host n ⟨.compiled, steps, env, t, as⟩) w (.error .overflow w') := by
  have hplain : ∀ body, interpretDirect host body = none := by
    rintro (label | _ | _)
    · show (host.direct label).map _ = none
      rw [hdirect, Option.map_none]
    · rfl
    · rfl
  have hG : (functionalGround _ (machineSetting host (interp host l) steps env).declining).Lawful :=
    lawful_declining hplain hdefs
  obtain ⟨N, hN⟩ := h.reaches (Reduce.sure_doesAct _)
  obtain ⟨w₁, hrun⟩ := ending_eq_ok_iff.mp (hN N (Nat.le_refl N) w)
  obtain ⟨_, n, w', ⟨u', hlike, hrun'⟩ | hover⟩ := exists_applyCompiled hG (l := l) (n := N)
    (fun _ _ => Eq.symm) (admissible_iff.mp ⟨ht.1, ht.2, fun _ _ => trivial⟩)
    (admissible_args_iff.mp fun a ha => ⟨(has a ha).1, (has a ha).2, fun _ _ => trivial⟩) hne
    (w := w) trivial hrun
  · obtain rfl := hlike.eq admissibleLikeness_strict
    exact ⟨w', .inl (hrun' ▸ .of_lasts (lasts_compiled_declining n) (fun _ => rfl) (hrun' ▸ nofun))⟩
  · exact ⟨w', .inr (hover ▸ .of_lasts (lasts_compiled_declining n) (fun _ => rfl) (hover ▸ nofun))⟩

end

end

/-! ## What calls end with -/

section

variable {engine : Engine κ} {cs : List (Codec κ)} {result : Codec κ} {tactic : Term κ} {vs : Vals cs}
  {s : ProofState κ} {w w₁ : World κ}

/-- A call ends with what its normal form is read as, unless the outcome is to be shown and is too large
for that, or the call is one too many to count. -/
theorem ends_call_of_ok {normal : Term κ} {o : Outcome κ result.Val}
    (ho : (Codec.outcome result).decode normal = some o)
    (h : Ends (fun n => evaluate host n (engine.reduction host cs tactic vs s w)) (callWorld cs vs w)
      (.ok normal w₁)) :
    ∃ w', Ends (fun n => execute host n (engine.call host cs result tactic vs s)) w (.ok o w') ∨
      Ends (fun n => execute host n (engine.call host cs result tactic vs s)) w
        (.error .overflow w') := by
  obtain ⟨-, n, hn⟩ := h
  obtain ⟨w₂, -, hcall⟩ | ⟨-, hcall⟩ := call_of_ok result hn
  case inr => exact ⟨_, .inr (.of_overflow hcall)⟩
  by_cases hw : w₂.debugging = true → Dumpable o.state
  · obtain ⟨w₃, -, hverdict⟩ := verdict_of_some host n s.mainContext ho hw
    exact ⟨w₃, .inl (.of_ok (hcall.trans hverdict))⟩
  · obtain ⟨hw, hs⟩ := Classical.not_imp.mp hw
    exact ⟨w₂, .inr (.of_overflow (hcall.trans (verdict_of_not_dumpable host n s.mainContext ho hw hs)))⟩

theorem ends_call_of_overflow
    (h : Ends (fun n => evaluate host n (engine.reduction host cs tactic vs s w)) (callWorld cs vs w)
      (.error .overflow w₁)) :
    ∃ w', Ends (fun n => execute host n (engine.call host cs result tactic vs s)) w
      (.error .overflow w') := by
  obtain ⟨-, n, hn⟩ := h
  obtain ⟨_, -, hcall⟩ | ⟨-, -, hcall⟩ := call_of_error result hn
  · exact ⟨_, .of_overflow hcall⟩
  · exact ⟨_, .of_overflow hcall⟩

end

/-! ## Handing a term on -/

/-- What a call of a metaprogram reduces with, in terms of the rules. -/
abbrev inForce (host : Host κ) (native : κ) (s : ProofState κ) (w : World κ) (l : Nat) :
    Reduce.Setting (Content κ) (Body κ) :=
  reduceSetting (interp host l) (StepTable.snapshot (host.natives native) w.registry) s.mainContext

/-- A call, on the term `v`, of the metaprogram that succeeds with what `e` is for its variable, and leaves
the state as it is. -/
def handOn (host : Host κ) (backend : Backend) (native : κ) (e v : Term κ) (s : ProofState κ) (n : Nat) :
    Act κ (Outcome κ (Term κ)) :=
  execute host n (Engine.call host ⟨backend, native⟩ [.term] .term (handing Names.success e) (v, ()) s)

section

variable {native : κ} {e v : Term κ} {s : ProofState κ} {w w₁ : World κ} {backend : Backend}

/-- The application that is reduced then. -/
def handedOn (host : Host κ) (backend : Backend) (native : κ) (e v : Term κ) (s : ProofState κ)
    (w : World κ) : Reduction (Content κ) (Body κ) :=
  Engine.reduction host ⟨backend, native⟩ [.term] (handing Names.success e) (v, ()) s w

theorem ends_handOn_of_ok (hv : v.strip = v)
    (h : Ends (fun n => evaluate host n (handedOn host backend native e v s w)) (callWorld [.term] (v, ()) w)
      (.ok (.app (.ctor Names.success) [v, (embed .proofState (.state s) w.supply).1]) w₁))
    (hrange : ∀ w', ¬ Ends (handOn host backend native e v s) w (.error .overflow w')) :
    ∃ w', Ends (handOn host backend native e v s) w (.ok (.success v s) w') := by
  have hdecode : (Codec.outcome .term).decode
      (.app (.ctor Names.success) [v, (embed .proofState (.state s) w.supply).1]) = some (.success v s) :=
    Codec.decode_outcome_eq_some_success_iff.mpr ⟨_, _, rfl, congrArg some hv, rfl⟩
  obtain ⟨w', hok | hover⟩ := ends_call_of_ok hdecode h
  · exact ⟨w', hok⟩
  · exact absurd hover (hrange w')

theorem not_ends_overflow_of_handOn
    (hrange : ∀ w', ¬ Ends (handOn host backend native e v s) w (.error .overflow w')) :
    ¬ Ends (fun n => evaluate host n (handedOn host backend native e v s w)) (callWorld [.term] (v, ()) w)
      (.error .overflow w₁) := by
  intro h
  obtain ⟨w', hover⟩ := @ends_call_of_overflow _ _ _ _ .term _ _ _ _ _ h
  exact hrange w' hover

/-- The metaprogram is closed, if it uses no other variable. -/
theorem closed_handing (hclosed : e.ClosedBelow 1) (he : e.Canonical) :
    Term.Closed (handing Names.success e) ∧ Term.Canonical (handing Names.success e) := by
  have hself : (admissibleLikeness fun _ => True).Alike 1 e e := by
    refine Term.alike_self (fun _ => hclosed) (fun _ => he) fun u _ => ?_
    cases u with
    | blob b => exact rfl
    | native s => exact ⟨rfl, trivial⟩
    | _ => trivial
  have hshift := @Term.Alike.shift _ _ _ e e 0 1 1 hself
  constructor
  · exact ⟨trivial, hshift.closedBelow trivial, by simp [Term.ClosedBelow], trivial⟩
  · exact ⟨by omega, rfl, nofun, trivial, hshift.canonical trivial, trivial, trivial⟩

end

/-- **Terms as data.**  A weak normal form is handed on as it is by a metaprogram that, with a fresh name put
for it, only carries the name along: the name is neither applied nor taken apart, and no step is met.  So it
is by reduction, and for closed terms by compiled evaluation too. -/
theorem data_transported {host : Host κ} {native : κ} {a : String} {e v : Term κ} {s : ProofState κ}
    {w : World κ} {l : Nat} (he : e.Canonical) (hfresh : e.Fresh a)
    (hdefs : ∀ c b, s.mainContext.unfoldable c = some b → b.Canonical ∧ b.Fresh a)
    (hcarries : Carries (inForce host native s w l) a (e.instantiate 0 [.free a]) (.free a))
    (hv : v.Canonical) (hnormal : Normal (inForce host native s w l) (doesAct (inForce host native s w l)) v)
    (hrange : ∀ w', ¬ Ends (handOn host .reduce native e v s) w (.error .overflow w')) :
    (∃ w', Ends (handOn host .reduce native e v s) w (.ok (.success v s) w')) ∧
      (v.Closed → e.ClosedBelow 1 → (∀ c b, s.mainContext.unfoldable c = some b → b.Closed) →
        (∀ label, host.direct label = none) →
        (∀ w', ¬ Ends (handOn host .compiled native e v s) w (.error .overflow w')) →
        ∃ w', Ends (handOn host .compiled native e v s) w (.ok (.success v s) w')) := by
  have hacts := Reduce.sure_doesAct (inForce host native s w l).declining
  have hvn := hnormal.declining
  have hstrip : v.strip = v := (hvn.headNormal.toWhnf.unwrapped rfl _ rfl).1
  have hnorm := Reduce.toNorm_handing (c := Names.success)
    (p := (embed .proofState (.state s) w.supply).1) hacts rfl he hfresh hdefs hv hvn
    (.head rfl (.rigid rfl) rfl) hcarries.declining
  have hreduce {x : Except (Halt (Content κ)) (Term κ)}
      (h : ToNorm (inForce host native s w l).declining (doesAct (inForce host native s w l).declining)
        ((handing Names.success e).apps [v, (embed .proofState (.state s) w.supply).1]) x)
      (hx : x ≠ .error .exhausted) :
      ∃ res, ending res = x ∧ Ends (fun n => evaluate host n (handedOn host .reduce native e v s w))
        (callWorld [.term] (v, ()) w) res :=
    ends_reduce h hx _
  rcases hnorm with hnorm | hover
  · constructor
    · obtain ⟨res, hres, hends⟩ := hreduce hnorm nofun
      obtain ⟨w₁, rfl⟩ := ending_eq_ok_iff.mp hres
      exact ends_handOn_of_ok hstrip hends hrange
    · intro hvclosed heclosed hclosed hdirect hrange'
      have hargs : ∀ t ∈ [v, (embed .proofState (.state s) w.supply).1],
          Term.Closed t ∧ Term.Canonical t := by
        rintro t (_ | ⟨_, _ | ⟨_, ⟨⟩⟩⟩)
        · exact ⟨hvclosed, hv⟩
        · exact ⟨trivial, trivial⟩
      obtain ⟨w₁, hends | hover⟩ := ends_compiled hdirect
        (fun c b hb => ⟨hclosed c b hb, (hdefs c b hb).1⟩) (closed_handing heclosed he) hargs
        (List.cons_ne_nil _ _) hnorm (callWorld [.term] (v, ()) w)
      · exact ends_handOn_of_ok hstrip hends hrange'
      · exact absurd hover (not_ends_overflow_of_handOn hrange')
  · -- by reduction, the call would leave the range
    obtain ⟨res, hres, hends⟩ := hreduce hover nofun
    obtain ⟨w₁, rfl⟩ := ending_eq_error_iff.mp hres
    exact absurd hends (not_ends_overflow_of_handOn hrange)

/-! ## A term on a shelf -/

/-- A host with a function of integers. -/
def counting : Host Unit :=
  { Host.silent Unit with natives := fun _ => [Codec.totalStep 0 "succ" [.int] .int ()] }

/-- What picks the first field of a pair. -/
def first : Term Unit := .lam 1 (.case (.bvar 0) [⟨.ctor "Pair" 2, .bvar 1⟩])

/-- A state in whose context that is defined. -/
def shelfState : ProofState Unit :=
  { mainContext := Env.define { moduleName := "Shelf" } "first" (some first) false, entryRange := {} }

/-- A datum is put into a pair and picked from it. -/
def picking : Term Unit := .app (.const "first") [.app (.ctor "Pair") [.bvar 0, .lit (.int 1)]]

/-- The successor of a function, which is none. -/
def noSuccessor : Term Unit := .app (.const "succ") [.lam 1 (.bvar 0)]

theorem unfoldable_shelf {c : String} {b : Term Unit} (h : shelfState.mainContext.unfoldable c = some b) :
    b = first := by
  have hdefs : shelfState.mainContext.defs = [("first", ⟨some first, false⟩)] := rfl
  by_cases hc : c = "first"
  · subst hc
    exact (Option.some.inj h).symm
  · have hnone : shelfState.mainContext.lookup c = none := by
      have hc' : (c == "first") = false := beq_false_of_ne hc
      rw [Env.lookup, Definitions.find?, hdefs, List.lookup_cons, hc', List.lookup_nil]
    rw [Env.unfoldable, hnone] at h
    cases h

theorem carries_picking : Carries (inForce counting () shelfState {} 1) "x"
    (picking.instantiate 0 [.free "x"]) (.free "x") :=
  .beta (.unfold rfl (.rigid rfl)) nofun (Nat.le_refl 1) rfl
    (.branch (.inert (.rigid rfl) nofun rfl rfl rfl nofun) rfl (.rigid rfl))

/-- Not a number: the function does not apply. -/
theorem normal_noSuccessor : Normal (inForce counting () shelfState {} 1)
    (doesAct (inForce counting () shelfState {} 1)) noSuccessor :=
  .of_declined rfl (s := Codec.totalStep 0 "succ" [.int] .int ()) rfl nofun rfl
    (List.forall_mem_singleton.mpr (.head rfl (.rigid rfl) rfl)) fun _ => rfl

/-- What ends with a value does not leave the range. -/
theorem not_overflow_of_ok {backend : Backend} {native : κ} {e v : Term κ} {s : ProofState κ}
    {w w₁ : World κ} {o : Outcome κ (Term κ)} (h : Ends (handOn host backend native e v s) w (.ok o w₁))
    (w' : World κ) : ¬ Ends (handOn host backend native e v s) w (.error .overflow w') := by
  intro hover
  cases h.unique (fun n => lasts_execute host n _) hover

theorem data_transported_picked :
    (∃ w', Ends (handOn counting .reduce () picking noSuccessor shelfState) {}
      (.ok (.success noSuccessor shelfState) w')) ∧
    ∃ w', Ends (handOn counting .compiled () picking noSuccessor shelfState) {}
      (.ok (.success noSuccessor shelfState) w') := by
  have hdefs : ∀ c b, shelfState.mainContext.unfoldable c = some b → b.Canonical ∧ b.Fresh "x" := by
    intro c b hb
    obtain rfl := unfoldable_shelf hb
    exact ⟨by simp [first, Term.Canonical, Term.CanonicalBranches],
      by simp [first, Term.Fresh, Term.subterms, Term.subtermsBranches]⟩
  have hcanonical : picking.Canonical ∧ noSuccessor.Canonical :=
    ⟨by simp [picking, Term.Canonical, Term.CanonicalArgs, Term.isApp],
      by simp [noSuccessor, Term.Canonical, Term.CanonicalArgs, Term.isApp]⟩
  have hfresh : picking.Fresh "x" := by
    simp [picking, Term.Fresh, Term.subterms, Term.subtermsArgs]
  obtain ⟨hreduce, hcompiled⟩ := data_transported hcanonical.1 hfresh hdefs carries_picking hcanonical.2
    normal_noSuccessor (not_overflow_of_ok (.of_ok (n := 20) rfl))
  refine ⟨hreduce, hcompiled ?_ ?_ (fun c b hb => ?_) (fun _ => rfl)
    (not_overflow_of_ok (.of_ok (n := 20) rfl))⟩
  · simp [noSuccessor, Term.Closed, Term.ClosedBelow, Term.ClosedBelowArgs]
  · simp [picking, Term.ClosedBelow, Term.ClosedBelowArgs]
  · obtain rfl := unfoldable_shelf hb
    simp [first, Term.Closed, Term.ClosedBelow, Term.ClosedBelowBranches, Pattern.binders]

/-! ## What does not come out as it went in -/

/-- A host with two rules: one ends with an issue, the other never applies, but the machine has a value for
it. -/
def tripping : Host Bool :=
  { Host.silent Bool with
    natives := fun
      | true => [⟨0, "boom", 1, {}, .rule true⟩]
      | false => [⟨1, "odd", 1, {}, .rule false⟩]
    rule := fun
      | true, _, _ => .fail (.internal none "boom")
      | false, _, _ => return none
    direct := fun
      | true => none
      | false => some fun _ => some (.lit .unit) }

/-- A state without definitions. -/
def bareState : ProofState Bool := { mainContext := { moduleName := "Bare" }, entryRange := {} }

/-- A datum is applied before it is handed on, whatever comes of that. -/
def trying : Term Bool := .case (.app (.bvar 0) [.lit .unit]) [⟨.wild, .bvar 0⟩]

/-- A function that ends with an issue. -/
def boom : Term Bool := .lam 1 (.app (.const "boom") [.lit .unit])

/-- An application of the step that the machine has a value for. -/
def odd : Term Bool := .app (.const "odd") [.lit .unit]

/-- A function is handed on by a metaprogram that applies it on the way, and the call ends with the issue of
its body.  A variable is handed on, and the machine finds it unbound.  An application that is not reduced is
handed on, and the machine has evaluated it. -/
theorem not_data_transported :
    (Normal (inForce tripping true bareState {} 1) (doesAct (inForce tripping true bareState {} 1)) boom ∧
      ToNorm (inForce tripping true bareState {} 1) (doesAct (inForce tripping true bareState {} 1))
        (trying.instantiate 0 [.free "x"]) (.ok (.free "x")) ∧
      ∀ backend, ∃ w', Ends (handOn tripping backend true trying boom bareState) {}
        (.error (.issue (.internal none "boom")) w')) ∧
    (Normal (inForce tripping true bareState {} 1) (doesAct (inForce tripping true bareState {} 1)) (.bvar 0) ∧
      ∃ w', Ends (handOn tripping .compiled true (.bvar 0) (.bvar 0) bareState) {}
        (.error (.issue (.internal none "unbound variable #0")) w')) ∧
    Normal (inForce tripping false bareState {} 1) (doesAct (inForce tripping false bareState {} 1)) odd ∧
      ∃ w', Ends (handOn tripping .compiled false (.bvar 0) odd bareState) {}
        (.ok (.success (.lit .unit) bareState) w') := by
  refine ⟨⟨.head rfl (.rigid rfl) rfl, ?_, ?_⟩, ⟨.head rfl (.rigid rfl) rfl, _, .of_issue (n := 20) rfl⟩, ?_,
    _, .of_ok (n := 20) rfl⟩
  · exact .head rfl (.case (.app (.rigid rfl) (.inert rfl rfl rfl)) rfl (.rigid rfl)) rfl
  · rintro (_ | _)
    · exact ⟨_, .of_issue (n := 20) rfl⟩
    · exact ⟨_, .of_issue (n := 20) rfl⟩
  · exact .of_declined rfl (s := ⟨1, "odd", 1, {}, .rule false⟩) rfl nofun rfl
      (List.forall_mem_singleton.mpr (.head rfl (.rigid rfl) rfl)) fun _ => rfl

end TacticEngine.Native
