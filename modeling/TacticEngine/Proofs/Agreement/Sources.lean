/-
# TacticEngine.Proofs.Agreement.Sources -- every value stands for its source.

A value has a source: the term that it would take to make it again.  Whatever has been evaluated by then, reading
the value back gives what normalizing the source gives.  This is so for all values that a machine is working with
at any moment: those that a call has been made with, those that are kept in the heap and those that these are made
of (`values_stand_for_sources`).  A source does not depend on the heap, and forcing a suspended computation only
fills slots; so no value stands for anything else afterwards.

Nothing is said where a machine word is too small: what the machine never evaluates cannot make it leave the range,
while reduction has to substitute into it (`not_values_stand_for_sources`).
-/
import TacticEngine.Proofs.Agreement.Calls
import TacticEngine.Proofs.Agreement.Functional
import TacticEngine.Proofs.Machine.Scope
import Mathlib.Logic.Relation

namespace TacticEngine

variable {β σ : Type}

section

variable (cfg : Machine.Setting β σ)

/-- Reducing a term until its head is settled. -/
def weakReductions (t : Term β σ) (n : Nat) : Act β σ (Term β σ) :=
  Reduce.whnf ⟨cfg.steps, .tactic, cfg.env, cfg.interp⟩ n t

end

namespace Machine

/-! ## Values at work -/

/-- The values that a value is made of. -/
def Value.parts : Value β σ → List (Value β σ)
  | .ctor _ args | .step _ _ args | .neutral _ args => args
  | .lit _ | .blob _ => []
  | .lam _ _ _ frame held => frame ++ held
  | .stuck s _ frame args => s :: (frame ++ args)
  | .thunk _ _ frame _ => frame

/-- The one value is the other one or is somewhere in it. -/
def Value.Has (v u : Value β σ) : Prop := Relation.ReflTransGen (fun v u => u ∈ v.parts) v u

/-- The values that a call is made with. -/
def Call.values : Call β σ → List (Value β σ)
  | .run _ frame => frame
  | .unfold _ => []
  | .force v | .readback v => [v]
  | .apply f args | .applyForced f args | .applyRest f args => f :: args

/-- The values that there are when the call is made: those that it is made with, those that are kept in the heap,
and those in them. -/
def Call.Holds (c : Call β σ) (m : Memory β σ) (v : Value β σ) : Prop :=
  ∃ u, (u ∈ c.values ∨ ∃ slot, m.heap.read slot = some u) ∧ u.Has v

section

variable (cfg : Setting β σ)

/-- From the memory, reading the value back comes to what normalizing its source comes to, unless either leaves the
range of machine words. -/
def Value.Faithful (m : Memory β σ) (v : Value β σ) : Prop :=
  ∀ t, v.source? = some t → ∀ w, InRange (reductions cfg t) w → InRange (fun n => readback cfg n v) m →
    ∀ x, Settles (fun n => readback cfg n v) m x ↔ Settles (reductions cfg t) w x

variable (allowed : Step σ → Prop)

/-- What a host may ask for that holds values, if reducing it stays in the range of machine words: from which memory
which call is made, in the memory that this leaves. -/
inductive Request (vs : List (Value β σ)) : Memory β σ → Call β σ → Memory β σ → Prop where
  | eval {t w code m m'} : Admissible allowed t → InRange (weakReductions cfg t) w →
      inHeap (·.reserve (compile cfg.steps t)) m = .ok code m' → Request vs m (.run code []) m'
  | force {v t w m} : v ∈ vs → v.source? = some t → InRange (weakReductions cfg t) w → Request vs m (.force v) m
  | apply {f args t ts w m} : f ∈ vs → (∀ a ∈ args, a ∈ vs) → f.source? = some t → sources? args = some ts →
      InRange (weakReductions cfg (t.apps ts)) w → Request vs m (.apply f args) m
  | readback {v t w m} : v ∈ vs → v.source? = some t → InRange (reductions cfg t) w →
      Request vs m (.readback v) m

/-- The memory and the values that a host may have after any number of requests, some of which may have been
refused with an issue. -/
inductive Dialogue : Memory β σ → List (Value β σ) → Prop where
  | start (w) : Dialogue { world := w } []
  /-- The host does something else. -/
  | elsewhere {m vs} (w) : Dialogue m vs → Dialogue { m with world := w } vs
  | suspended {m vs t v m'} : Dialogue m vs → Admissible allowed t → ofTerm t m = .ok v m' →
      Dialogue m' (v :: vs)
  /-- The host takes a value apart. -/
  | taken {m vs v u} : Dialogue m vs → v ∈ vs → u ∈ v.parts → Dialogue m (u :: vs)
  | answered {m vs c m₁ fuel v m'} : Dialogue m vs → Request cfg allowed vs m c m₁ →
      c.perform cfg fuel m₁ = .ok (.value v) m' → Dialogue m' (v :: vs)
  | read {m vs c m₁ fuel t m'} : Dialogue m vs → Request cfg allowed vs m c m₁ →
      c.perform cfg fuel m₁ = .ok (.term t) m' → Dialogue m' vs
  | refused {m vs c m₁ fuel e m'} : Dialogue m vs → Request cfg allowed vs m c m₁ →
      c.perform cfg fuel m₁ = .error (.issue e) m' → Dialogue m' vs

/-- The configurations that the machine goes through to answer requests. -/
inductive Visited : Nat → Call β σ → Memory β σ → Prop where
  | request {vs m c m' fuel} : Dialogue cfg allowed m vs → Request cfg allowed vs m c m' → Visited fuel c m'
  | call {fuel c m c' m'} : Visited (fuel + 1) c m → Calls cfg fuel c m c' m' → Visited fuel c' m'

end

end Machine

/-! ## Parts of well-formed values -/

namespace Ground

open Machine (Value)

variable {G : Ground β σ} {Γ : List (Term β σ)} {v u : Value β σ}

theorem Formed.parts (hv : G.Formed Γ v) : ∀ u ∈ v.parts, G.Formed Γ u := by
  cases hv with
  | ctor h | step _ _ h | neutral _ _ _ h => exact h
  | lit | blob => exact formed_nil
  | lam _ _ hframe hheld => exact formed_append hframe hheld
  | thunk _ _ _ hframe => exact hframe
  | stuck _ _ hs hframe hargs =>
      intro u hu
      rcases List.mem_cons.mp hu with rfl | hu
      · exact hs
      · exact formed_append hframe hargs u hu

theorem Formed.has (hv : G.Formed Γ v) (h : v.Has u) : G.Formed Γ u := by
  induction h with
  | refl => exact hv
  | tail _ hu ih => exact ih.parts _ hu

theorem InOrder.read {m : Machine.Memory β σ} (hm : G.InOrder Γ m) {slot : Nat}
    (h : m.heap.read slot = some v) : G.Formed Γ v := (hm.filled.read h).1.1

/-- All the values that a comparable call is made with are well formed, but for a step that has not been fired. -/
theorem Comparable.values {c : Machine.Call β σ} (hc : G.Comparable Γ c) :
    ∀ v ∈ c.values, G.Formed Γ v ∨ v.Unfired := by
  have hall {v : Value β σ} {vs : List (Value β σ)} (hv : G.Formed Γ v) (hvs : ∀ a ∈ vs, G.Formed Γ a) :
      ∀ u ∈ v :: vs, G.Formed Γ u ∨ u.Unfired := by
    intro u hu
    rcases List.mem_cons.mp hu with rfl | hu
    · exact .inl hv
    · exact .inl (hvs u hu)
  cases hc with
  | run _ _ hframe => exact fun v hv => .inl (hframe v hv)
  | unfold => exact nofun
  | force hv | readback hv => exact hall hv formed_nil
  | forced hv => exact hall hv.1 formed_nil
  | apply hf hargs | applyForced hf hargs | applyRest hf hargs => exact hall hf.1 hargs
  | applySuspended hf hargs => exact hall hf hargs
  | @constant t s _ _ harity | @constantForced t s _ _ harity | @constantForce t s harity =>
      intro v hv
      exact .inr ⟨t, s, harity, List.mem_singleton.mp hv⟩

/-- A step that has not been fired has no parts. -/
theorem formed_of_has (hv : G.Formed Γ v ∨ v.Unfired) (h : v.Has u) (hu : ¬ u.Unfired) : G.Formed Γ u := by
  rcases hv with hv | ⟨t, s, harity, rfl⟩
  · exact hv.has h
  · rcases Relation.ReflTransGen.cases_head h with rfl | ⟨_, hpart, -⟩
    · exact absurd ⟨t, s, harity, rfl⟩ hu
    · cases hpart

theorem Comparable.holds {c : Machine.Call β σ} {m : Machine.Memory β σ} (hc : G.Comparable Γ c)
    (hm : G.InOrder Γ m) (h : c.Holds m v) (hv : ¬ v.Unfired) : G.Formed Γ v := by
  obtain ⟨u, hu | ⟨slot, hu⟩, hhas⟩ := h
  · exact formed_of_has (hc.values u hu) hhas hv
  · exact (hm.read hu).has hhas

end Ground

/-! ## Dialogues stay in order -/

namespace Machine

variable {allowed : Step σ → Prop} {cfg : Setting β σ}
  {f : σ → Env β σ → List (Term β σ) → Except (Issue β) (Option (Term β σ))}

/-- A host's requests are comparable if its values are well formed. -/
theorem Request.comparable (h : Functional allowed cfg f) {Γ : List (Term β σ)} {vs : List (Value β σ)}
    {m m' : Memory β σ} {c : Call β σ} (hr : Request cfg allowed vs m c m')
    (hm : (functionalGround allowed cfg).InOrder Γ m)
    (hvs : ∀ v ∈ vs, (functionalGround allowed cfg).Formed Γ v) :
    ∃ Γ', Γ <+: Γ' ∧ (functionalGround allowed cfg).InOrder Γ' m' ∧
      (functionalGround allowed cfg).Comparable Γ' c ∧
      ∀ v ∈ c.values, (functionalGround allowed cfg).Formed Γ' v := by
  cases hr with
  | @eval t w code _ _ ht hrange hcode =>
      obtain ⟨Γ₁, hΓ, hm₁, hcode⟩ := (Ground.Ensures.reserve (E := fun _ => False)
        (Ground.compile_compiled h.lawful Γ t)).of_ok id hm hcode
      refine ⟨Γ₁, hΓ, hm₁, .run hcode (admissible_iff.mp ht) Ground.formed_nil fun hfail => ?_,
        Ground.formed_nil⟩
      rw [sources, Term.instantiate_nil] at hfail
      exact not_comes_overflow hrange hfail.comes
  | @force v t w _ hv ht hrange =>
      refine ⟨Γ, List.prefix_rfl, hm, .force (hvs v hv) fun hfail => ?_, ?_⟩
      · rw [← source_of_source? ht] at hfail
        exact not_comes_overflow hrange hfail.comes
      · exact fun u hu => hvs u (List.mem_singleton.mp hu ▸ hv)
  | @apply g args t ts w _ hg hargs ht hts hrange =>
      refine ⟨Γ, List.prefix_rfl, hm, .applySuspended (hvs g hg) (fun a ha => hvs a (hargs a ha))
        fun hfail => ?_, ?_⟩
      · rw [← source_of_source? ht, ← sources_of_sources? hts] at hfail
        exact not_comes_overflow hrange hfail.comes
      · intro u hu
        rcases List.mem_cons.mp hu with rfl | hu
        · exact hvs u hg
        · exact hvs u (hargs u hu)
  | @readback v t w _ hv ht hrange =>
      refine ⟨Γ, List.prefix_rfl, hm, .readback (hvs v hv) fun hfail => ?_, ?_⟩
      · rw [← source_of_source? ht] at hfail
        exact not_comes_overflow hrange hfail
      · exact fun u hu => hvs u (List.mem_singleton.mp hu ▸ hv)

theorem Dialogue.inOrder (h : Functional allowed cfg f) {m : Memory β σ} {vs : List (Value β σ)}
    (hd : Dialogue cfg allowed m vs) : ∃ Γ, (functionalGround allowed cfg).InOrder Γ m ∧
      ∀ v ∈ vs, (functionalGround allowed cfg).Formed Γ v := by
  have hcons {Γ : List (Term β σ)} {v : Value β σ} {vs : List (Value β σ)}
      (hv : (functionalGround allowed cfg).Formed Γ v)
      (hvs : ∀ a ∈ vs, (functionalGround allowed cfg).Formed Γ a) :
      ∀ a ∈ v :: vs, (functionalGround allowed cfg).Formed Γ a := by
    intro a ha
    rcases List.mem_cons.mp ha with rfl | ha
    · exact hv
    · exact hvs a ha
  induction hd with
  | start w => exact ⟨[], ⟨filled_empty _, trivial⟩, Ground.formed_nil⟩
  | elsewhere w _ ih =>
      obtain ⟨Γ, hm, hvs⟩ := ih
      exact ⟨Γ, ⟨hm.filled, trivial⟩, hvs⟩
  | suspended _ ht hr ih =>
      obtain ⟨Γ, hm, hvs⟩ := ih
      obtain ⟨Γ₁, hΓ, hm₁, hv, -⟩ := (Ground.Ensures.ofTerm (E := fun _ => False)
        (admissible_iff.mp ht)).of_ok id hm hr
      exact ⟨Γ₁, hm₁, hcons hv (Ground.formed_mono hΓ hvs)⟩
  | taken _ hv hu ih =>
      obtain ⟨Γ, hm, hvs⟩ := ih
      exact ⟨Γ, hm, hcons ((hvs _ hv).parts _ hu) hvs⟩
  | answered _ hreq hr ih =>
      obtain ⟨Γ, hm, hvs⟩ := ih
      obtain ⟨Γ₁, hΓ, hm₁, hc, hvalues⟩ := hreq.comparable h hm hvs
      obtain ⟨E, hE, hperform⟩ := hc.ensures (l := 0) h.lawful
      obtain ⟨Γ₂, hΓ', hm₂, hv⟩ := hperform.of_ok hE hm₁ hr
      refine ⟨Γ₂, hm₂, hcons ?_ (Ground.formed_mono (hΓ.trans hΓ') hvs)⟩
      -- a host has no step that has not been fired
      rcases hv _ rfl with hv | ⟨-, rfl⟩
      · exact hv
      · exact (hvalues _ (List.mem_singleton_self _)).mono hΓ'
  | read _ hreq hr ih =>
      obtain ⟨Γ, hm, hvs⟩ := ih
      obtain ⟨Γ₁, hΓ, hm₁, hc, -⟩ := hreq.comparable h hm hvs
      obtain ⟨E, hE, hperform⟩ := hc.ensures (l := 0) h.lawful
      obtain ⟨Γ₂, hΓ', hm₂, -⟩ := hperform.of_ok hE hm₁ hr
      exact ⟨Γ₂, hm₂, Ground.formed_mono (hΓ.trans hΓ') hvs⟩
  | refused _ hreq hr ih =>
      obtain ⟨Γ, hm, hvs⟩ := ih
      obtain ⟨Γ₁, hΓ, hm₁, hc, -⟩ := hreq.comparable h hm hvs
      obtain ⟨E, hE, hperform⟩ := hc.ensures (l := 0) h.lawful
      obtain ⟨Γ₂, hΓ', hm₂⟩ := hperform.of_issue hE hm₁ hr
      exact ⟨Γ₂, hm₂, Ground.formed_mono (hΓ.trans hΓ') hvs⟩

theorem Visited.comparable (h : Functional allowed cfg f) {n : Nat} {c : Call β σ} {m : Memory β σ}
    (hc : Visited cfg allowed n c m) : ∃ Γ, (functionalGround allowed cfg).InOrder Γ m ∧
      (functionalGround allowed cfg).Comparable Γ c := by
  induction hc with
  | request hd hreq =>
      obtain ⟨Γ, hm, hvs⟩ := hd.inOrder h
      obtain ⟨Γ₁, -, hm₁, hc, -⟩ := hreq.comparable h hm hvs
      exact ⟨Γ₁, hm₁, hc⟩
  | call _ hcall ih =>
      obtain ⟨Γ, hm, hc⟩ := ih
      obtain ⟨Γ₁, -, hm₁, hc₁⟩ := hc.call (l := 0) h.lawful hcall hm
      exact ⟨Γ₁, hm₁, hc₁⟩

/-! ## What well-formed values stand for -/

/-- Reading back a well-formed value comes to what normalizing its source comes to. -/
theorem faithful_of_formed (h : Functional allowed cfg f) {Γ : List (Term β σ)} {m : Memory β σ}
    {v : Value β σ} (hm : (functionalGround allowed cfg).InOrder Γ m)
    (hv : (functionalGround allowed cfg).Formed Γ v) : v.Faithful cfg m := by
  intro t ht w hrange hrange' x
  obtain rfl := source_of_source? ht
  have hsound {x : Except (Issue β) (Term β σ)} (hx : Settles (fun n => readback cfg n v) m x) :
      Settles (reductions cfg v.source) w x := by
    have hsettles := settles_of_ensures (g := id)
      (fun n => (Ground.soundAt h.lawful 0 n).readback hv) hm.filled hrange hx
    rwa [Except.map_id] at hsettles
  constructor
  · exact hsound
  · intro hx
    obtain ⟨n, hended⟩ := hx.ended
    have hend : (functionalGround allowed cfg).NormEndsIn n v.source :=
      ⟨v.source, 0, w, hv.good, trivial, hended⟩
    obtain ⟨y, hy⟩ := exists_settles_of_halts ((Ground.progressAt h.lawful n).readback hv hend)
      hm.filled hrange'
    rwa [hx.unique (hsound hy)]

/-- Evaluating a term comes to a value that stands for what the term is reduced to. -/
theorem eval_settles (h : Functional allowed cfg f) {Γ : List (Term β σ)} {m : Memory β σ} {t : Term β σ}
    (hm : (functionalGround allowed cfg).InOrder Γ m) (ht : Admissible allowed t) {w : World β σ}
    (hrange : InRange (weakReductions cfg t) w) {x : Except (Issue β) (Value β σ)}
    (hx : Settles (fun n => eval cfg n t) m x) : Settles (weakReductions cfg t) w (x.map Value.source) :=
  settles_of_ensures (fun _ => (Ground.ensures_eval (l := 0) h.lawful (admissible_iff.mp ht)).imp
    (fun _ _ _ hv => ⟨hv.1, hv.2.comes hv.1⟩) fun _ hfail => hfail.comes) hm.filled hrange hx

theorem exists_eval_settles (h : Functional allowed cfg f) {Γ : List (Term β σ)} {m : Memory β σ}
    {t : Term β σ} (hm : (functionalGround allowed cfg).InOrder Γ m) (ht : Admissible allowed t)
    (hrange : InRange (fun n => eval cfg n t) m) {w : World β σ} {x : Except (Issue β) (Term β σ)}
    (hx : Settles (weakReductions cfg t) w x) : ∃ y, Settles (fun n => eval cfg n t) m y := by
  obtain ⟨n, hended⟩ := hx.ended
  have hgood : (functionalGround allowed cfg).Good t := admissible_iff.mp ht
  have hend : (functionalGround allowed cfg).EndsIn n t [] :=
    Ground.endsIn_nil_iff.mpr ⟨t, 0, w, hgood, trivial, hended⟩
  exact exists_settles_of_halts (Ground.halts_eval h.lawful hgood hend) hm.filled hrange

/-- **Every value stands for its source.**  If the steps are functions, then as long as the reduction of what a
host asks for stays in the range of machine words:
* the values that the host has and those in them are read back to the normal forms of their sources;
* evaluating a term succeeds, wherever a dialogue has got to, if and only if reducing it until its head is settled
  does, and then the value has the source that the term is reduced to, unless putting it together or one of the two
  runs leaves the range;
* all the values that there are when a call is made, at any time in a dialogue, are read back to the normal forms
  of their sources, but for a step that has not been fired;
* so are, when the call has been answered or refused, the same values with the same sources, whichever of them have
  been forced by then;
* and so are the value that the call gives and those in it. -/
theorem values_stand_for_sources (h : Functional allowed cfg f) :
    (∀ m vs, Dialogue cfg allowed m vs → (∀ v ∈ vs, ∀ u, v.Has u → u.Faithful cfg m) ∧
      ∀ t w, Admissible allowed t → InRange (weakReductions cfg t) w → InRange (fun n => eval cfg n t) m →
        ((∃ v, Settles (fun n => eval cfg n t) m (.ok v)) ↔ ∃ u, Settles (weakReductions cfg t) w (.ok u)) ∧
        ∀ v u, Settles (fun n => eval cfg n t) m (.ok v) → v.source? = some u →
          Settles (weakReductions cfg t) w (.ok u)) ∧
    ∀ n c m, Visited cfg allowed n c m →
      (∀ v, c.Holds m v → ¬ v.Unfired → v.Faithful cfg m) ∧
      (∀ r m', c.perform cfg n m = .ok r m' →
        (∀ v, c.Holds m v → ¬ v.Unfired → v.Faithful cfg m') ∧
        ∀ v u, r = .value v → v.Has u → ¬ u.Unfired → u.Faithful cfg m') ∧
      ∀ e m', c.perform cfg n m = .error (.issue e) m' →
        ∀ v, c.Holds m v → ¬ v.Unfired → v.Faithful cfg m' := by
  refine ⟨fun m vs hd => ?_, fun n c m hc => ?_⟩
  · obtain ⟨Γ, hm, hvs⟩ := hd.inOrder h
    refine ⟨fun v hv u hu => faithful_of_formed h hm ((hvs v hv).has hu), fun t w ht hrange hrange' => ?_⟩
    have hgives {x : Except (Issue β) (Value β σ)} (hx : Settles (fun n => eval cfg n t) m x) :=
      eval_settles h hm ht hrange hx
    refine ⟨⟨fun ⟨v, hv⟩ => ⟨v.source, hgives hv⟩, fun ⟨u, hu⟩ => ?_⟩, fun v u hv hu => ?_⟩
    · obtain ⟨x, hx⟩ := exists_eval_settles h hm ht hrange' hu
      cases x with
      | ok v => exact ⟨v, hx⟩
      | error e => cases hu.unique (hgives hx)
    · rw [source_of_source? hu]
      exact hgives hv
  · obtain ⟨Γ, hm, hc⟩ := hc.comparable h
    have hformed {v : Value β σ} (hv : c.Holds m v) (hfired : ¬ v.Unfired) := hc.holds hm hv hfired
    obtain ⟨E, hE, hperform⟩ := hc.ensures (l := 0) (n := n) h.lawful
    refine ⟨fun v hv hfired => faithful_of_formed h hm (hformed hv hfired), fun r m' hr => ?_,
      fun e m' hr v hv hfired => ?_⟩
    · obtain ⟨Γ₁, hΓ, hm₁, hreply⟩ := hperform.of_ok hE hm hr
      refine ⟨fun v hv hfired => faithful_of_formed h hm₁ ((hformed hv hfired).mono hΓ),
        fun v u heq hu hfired => faithful_of_formed h hm₁ ?_⟩
      exact Ground.formed_of_has ((hreply v heq).imp id And.left) hu hfired
    · obtain ⟨Γ₁, hΓ, hm₁⟩ := hperform.of_issue hE hm hr
      exact faithful_of_formed h hm₁ ((hformed hv hfired).mono hΓ)

/-! ### Arguments that are not evaluated -/

/-- A function that drops its argument, which has more variables around it than an index can tell apart. -/
def dropping : Term Unit Unit :=
  .app (.lam 1 (.app (.lam 1 (.lit (.int 1))) [.lam 4294967295 (.lam 1 (.bvar 0))])) [.lit (.int 5)]

/-- The machine never looks at the argument.  Reduction substitutes into it, and leaves the range. -/
theorem not_values_stand_for_sources : Admissible (fun _ => True) dropping ∧
    (∃ v, Settles (fun n => eval adding n dropping) { world := {} } (.ok v)) ∧
    ¬ ∃ u, Settles (weakReductions adding dropping) {} (.ok u) := by
  refine ⟨⟨?_, ?_, fun _ _ => trivial⟩, ⟨.lit (.int 1), 8, fun n hn => ?_⟩, fun ⟨u, N, hN⟩ => ?_⟩
  · simp [dropping, Term.Closed, Term.ClosedBelow, Term.ClosedBelowArgs]
  · simp [dropping, Term.Canonical, Term.CanonicalArgs, Term.isApp]
  · obtain ⟨n, rfl⟩ := Nat.exists_eq_add_of_le' hn
    rfl
  · have hover : overflowed (weakReductions adding dropping (N + 8) {}) = true := rfl
    have hok := hN (N + 8) (Nat.le_add_right N 8)
    generalize weakReductions adding dropping (N + 8) {} = r at hover hok
    cases r with
    | ok => cases hover
    | error e => cases e <;> cases hok

/-- A closure keeps a sum that it was given, suspended.  The sum stands for itself, and is read back to its value. -/
theorem values_stand_for_sources_capturingSum : ∃ v m' u, eval adding 10 capturingSum { world := {} } = .ok v m' ∧
    u ∈ v.parts ∧ u.source? = some (.app (.const "add") [.lit (.int 20), .lit (.int 1)]) ∧
    Settles (fun n => readback adding n u) m' (.ok (.lit (.int 21))) := by
  obtain ⟨code, m, v, m', u, hcode, hperform, heval, hpart, hfired, hsource, hrange⟩ :
      ∃ code m v m' u, inHeap (·.reserve (compile adding.steps capturingSum)) { world := {} } = .ok code m ∧
        (Call.run code []).perform adding 10 m = .ok (.value v) m' ∧
        eval adding 10 capturingSum { world := {} } = .ok v m' ∧ u ∈ v.parts ∧ u.isThunk = true ∧
        u.source? = some (.app (.const "add") [.lit (.int 20), .lit (.int 1)]) ∧
        InRange (fun n => readback adding n u) m' := by
    refine ⟨_, _, _, _, _, rfl, rfl, rfl, List.mem_cons_self, rfl, rfl, fun n => ?_⟩
    rcases n with _ | _ | _ | _ | _ | _ | _ | _ | _ | _ | n
    all_goals rfl
  have hclosed : Admissible (fun _ => True) capturingSum :=
    ⟨by simp [capturingSum, Term.Closed, Term.ClosedBelow, Term.ClosedBelowArgs],
      by simp [capturingSum, Term.Canonical, Term.CanonicalArgs, Term.isApp], fun _ _ => trivial⟩
  have hvisited : Visited adding (fun _ => True) 10 (.run code []) m := by
    refine .request (.start {}) (.eval (w := {}) hclosed (fun n => ?_) hcode)
    rcases n with _ | _ | _ | _ | _ | _ | _ | _ | _ | _ | n
    all_goals rfl
  have hfaithful := ((values_stand_for_sources functional_adding).2 _ _ _ hvisited).2.1 _ _ hperform
  refine ⟨v, m', u, heval, hpart, hsource, ?_⟩
  refine (hfaithful.2 v u rfl (.single hpart) ?_ _ hsource {} (fun n => ?_) hrange _).mpr ?_
  · rintro ⟨t, s, -, rfl⟩
    cases hfired
  · rcases n with _ | _ | _ | _ | _ | _ | _ | _ | _ | _ | n
    all_goals rfl
  · refine ⟨10, fun n hn => ?_⟩
    obtain ⟨n, rfl⟩ := Nat.exists_eq_add_of_le' hn
    rfl

end Machine

end TacticEngine
