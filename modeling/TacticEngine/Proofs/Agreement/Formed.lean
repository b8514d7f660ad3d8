/-
# TacticEngine.Proofs.Agreement.Formed -- well-formed code, values and heaps.

Every slot of a heap is there for a term: a constant, or the source of a suspended computation.  `Γ`
lists these terms.  Code and values are well formed if they have been made by compiling and evaluating
good terms and if the slots that occur in them are there for what they are used for.  Slots are only
ever added, so what is well formed stays so.
-/
import TacticEngine.Proofs.Agreement.Final
import TacticEngine.Proofs.Machine.Source

namespace TacticEngine

variable {β σ α γ : Type}

namespace Ground

open Machine (Code Delayed Value Heap Slots compile delayAll compileBranches sources)
open Term (instantiateBranches)

/-! ## Code -/

section

variable (G : Ground β σ) (Γ : List (Term β σ))

mutual
/-- The code has been compiled from the term. -/
inductive Compiled : Term β σ → Code β σ → Prop where
  | bvar {i} : Compiled (.bvar i) (.var i)
  | const {c slot} : G.steps.lookup c = none → Γ[slot]? = some (.const c) →
      Compiled (.const c) (.const c slot)
  | step {t s} : G.stepOf t = some s → Compiled t (.step t s)
  | ctor {c} : Compiled (.ctor c) (.ctor c)
  | free {x} : Compiled (.free x) (.neutral (.free x))
  | uvar {u} : Compiled (.uvar u) (.neutral (.uvar u))
  | lit {l} : Compiled (.lit l) (.lit l)
  | blob {b} : Compiled (.blob b) (.blob b)
  | app {h as c ds} : Compiled h c → CompiledArgs as ds → Compiled (.app h as) (.app c ds)
  | lam {n b c} : Compiled b c → Compiled (.lam n b) (.lam n (.lam n b) c)
  | case {s brs c cs} : Compiled s c → CompiledBranches brs cs → Compiled (.case s brs) (.case c cs)
  | ascribed {e t c} : Compiled e c → Compiled (.ascribed e t) c
  | annotated {e n c} : Compiled e c → Compiled (.annotated e n) c
  | reify {e c} : Compiled e c → Compiled (.reify e) c

/-- The arguments have been compiled, so that they can be passed without being evaluated. -/
inductive CompiledArgs : List (Term β σ) → List (Delayed β σ) → Prop where
  | nil : CompiledArgs [] []
  | var {i as ds} : CompiledArgs as ds → CompiledArgs (.bvar i :: as) (.var i :: ds)
  | lit {l as ds} : CompiledArgs as ds → CompiledArgs (.lit l :: as) (.lit l :: ds)
  | blob {b as ds} : CompiledArgs as ds → CompiledArgs (.blob b :: as) (.blob b :: ds)
  | thunk {a c as ds} : Compiled a c → CompiledArgs as ds →
      CompiledArgs (a :: as) (.thunk a c :: ds)

/-- The bodies of branches have been compiled. -/
inductive CompiledBranches :
    List (Branch (Term β σ)) → List (Branch (Term β σ × Code β σ)) → Prop where
  | nil : CompiledBranches [] []
  | cons {p b c brs cs} : Compiled b c → CompiledBranches brs cs →
      CompiledBranches (⟨p, b⟩ :: brs) (⟨p, (b, c)⟩ :: cs)
end

end

variable {G : Ground β σ} {Γ Γ' : List (Term β σ)}

theorem getElem?_mono {xs ys : List α} (h : xs <+: ys) {i : Nat} {a : α}
    (ha : xs[i]? = some a) : ys[i]? = some a := by
  obtain ⟨zs, rfl⟩ := h
  rw [List.getElem?_append_left (List.getElem?_eq_some_iff.mp ha).1, ha]

mutual
theorem Compiled.mono (hΓ : Γ <+: Γ') : ∀ {t : Term β σ} {c : Code β σ},
    G.Compiled Γ t c → G.Compiled Γ' t c
  | _, _, .bvar => .bvar
  | _, _, .const hc hslot => .const hc (getElem?_mono hΓ hslot)
  | _, _, .step hs => .step hs
  | _, _, .ctor => .ctor
  | _, _, .free => .free
  | _, _, .uvar => .uvar
  | _, _, .lit => .lit
  | _, _, .blob => .blob
  | _, _, .app h has => .app (h.mono hΓ) (has.mono hΓ)
  | _, _, .lam h => .lam (h.mono hΓ)
  | _, _, .case h hbrs => .case (h.mono hΓ) (hbrs.mono hΓ)
  | _, _, .ascribed h => .ascribed (h.mono hΓ)
  | _, _, .annotated h => .annotated (h.mono hΓ)
  | _, _, .reify h => .reify (h.mono hΓ)

theorem CompiledArgs.mono (hΓ : Γ <+: Γ') : ∀ {as : List (Term β σ)} {ds : List (Delayed β σ)},
    G.CompiledArgs Γ as ds → G.CompiledArgs Γ' as ds
  | _, _, .nil => .nil
  | _, _, .var h => .var (h.mono hΓ)
  | _, _, .lit h => .lit (h.mono hΓ)
  | _, _, .blob h => .blob (h.mono hΓ)
  | _, _, .thunk h hs => .thunk (h.mono hΓ) (hs.mono hΓ)

theorem CompiledBranches.mono (hΓ : Γ <+: Γ') : ∀ {brs : List (Branch (Term β σ))}
    {cs : List (Branch (Term β σ × Code β σ))},
    G.CompiledBranches Γ brs cs → G.CompiledBranches Γ' brs cs
  | _, _, .nil => .nil
  | _, _, .cons h hs => .cons (h.mono hΓ) (hs.mono hΓ)
end

/-- Something takes slots, each for a term that is good if the others are, and has a result with the
property. -/
def Reserves (G : Ground β σ) (Γ : List (Term β σ)) (m : Slots α)
    (P : List (Term β σ) → α → Prop) : Prop :=
  ∃ Δ, (m Γ.length).2 = (Γ ++ Δ).length ∧ (∀ t ∈ Δ, G.Good t) ∧ P (Γ ++ Δ) (m Γ.length).1

theorem Reserves.pure {P : List (Term β σ) → α → Prop} {a : α} (h : P Γ a) :
    G.Reserves Γ (Pure.pure a) P :=
  ⟨[], by rw [List.append_nil]; rfl, by simp, by rwa [List.append_nil]⟩

theorem Reserves.bind {P : List (Term β σ) → α → Prop} {Q : List (Term β σ) → γ → Prop}
    {m : Slots α} {f : α → Slots γ} (hm : G.Reserves Γ m P)
    (hf : ∀ Γ' a, Γ <+: Γ' → P Γ' a → G.Reserves Γ' (f a) Q) : G.Reserves Γ (m >>= f) Q := by
  obtain ⟨Δ, hlen, hgood, hP⟩ := hm
  obtain ⟨Δ', hlen', hgood', hQ⟩ := hf _ _ (List.prefix_append Γ Δ) hP
  have hrun : (m >>= f) Γ.length = f (m Γ.length).1 (Γ ++ Δ).length := by
    rw [← hlen]
    rfl
  refine ⟨Δ ++ Δ', ?_, ?_, ?_⟩
  · rw [hrun, hlen', List.append_assoc]
  · intro t ht
    rcases List.mem_append.mp ht with ht | ht
    · exact hgood t ht
    · exact hgood' t ht
  · rwa [hrun, ← List.append_assoc]

theorem Reserves.imp {P Q : List (Term β σ) → α → Prop} {m : Slots α} (hm : G.Reserves Γ m P)
    (hPQ : ∀ Γ' a, P Γ' a → Q Γ' a) : G.Reserves Γ m Q := by
  obtain ⟨Δ, hlen, hgood, hP⟩ := hm
  exact ⟨Δ, hlen, hgood, hPQ _ _ hP⟩

mutual
theorem compile_compiled (hG : G.Lawful) : ∀ (Γ : List (Term β σ)) (t : Term β σ),
    G.Reserves Γ (compile G.steps t) fun Γ' c => G.Compiled Γ' t c
  | Γ, .bvar i => by rw [compile]; exact .pure .bvar
  | Γ, .const c => by
      rw [compile]
      cases hc : G.steps.lookup c with
      | some s => exact .pure (.step hc)
      | none =>
          refine ⟨[.const c], by rw [List.length_append]; rfl, ?_, .const hc ?_⟩
          · intro t ht
            obtain rfl := List.mem_singleton.mp ht
            exact .const (hG.const c)
          · exact List.getElem?_concat_length
  | Γ, .ctor c => by rw [compile]; exact .pure .ctor
  | Γ, .free x => by rw [compile]; exact .pure .free
  | Γ, .uvar u => by rw [compile]; exact .pure .uvar
  | Γ, .lit l => by rw [compile]; exact .pure .lit
  | Γ, .blob b => by rw [compile]; exact .pure .blob
  | Γ, .native s => by rw [compile]; exact .pure (.step rfl)
  | Γ, .app h as => by
      rw [compile]
      refine (compile_compiled hG Γ h).bind fun Γ₁ c hΓ hc => ?_
      refine (delayAll_compiled hG Γ₁ as).bind fun Γ₂ ds hΓ hds => ?_
      exact .pure (.app (hc.mono hΓ) hds)
  | Γ, .lam n b => by
      rw [compile]
      exact (compile_compiled hG Γ b).bind fun Γ₁ c _ hc => .pure (.lam hc)
  | Γ, .case s brs => by
      rw [compile]
      refine (compile_compiled hG Γ s).bind fun Γ₁ c hΓ hc => ?_
      refine (compileBranches_compiled hG Γ₁ brs).bind fun Γ₂ cs hΓ hcs => ?_
      exact .pure (.case (hc.mono hΓ) hcs)
  | Γ, .ascribed e t => by
      rw [compile]
      exact (compile_compiled hG Γ e).imp fun _ _ hc => .ascribed hc
  | Γ, .annotated e n => by
      rw [compile]
      exact (compile_compiled hG Γ e).imp fun _ _ hc => .annotated hc
  | Γ, .reify e => by
      rw [compile]
      exact (compile_compiled hG Γ e).imp fun _ _ hc => .reify hc

theorem delayAll_compiled (hG : G.Lawful) : ∀ (Γ : List (Term β σ)) (as : List (Term β σ)),
    G.Reserves Γ (delayAll G.steps as) fun Γ' ds => G.CompiledArgs Γ' as ds
  | Γ, [] => by rw [delayAll]; exact .pure .nil
  | Γ, a :: as => by
      have hthunk : G.Reserves Γ (do
          let code ← compile G.steps a
          let as ← delayAll G.steps as
          return .thunk a code :: as) fun Γ' ds => G.CompiledArgs Γ' (a :: as) ds := by
        refine (compile_compiled hG Γ a).bind fun Γ₁ c hΓ hc => ?_
        refine (delayAll_compiled hG Γ₁ as).bind fun Γ₂ ds hΓ hds => ?_
        exact .pure (.thunk (hc.mono hΓ) hds)
      cases a with
      | bvar i =>
          rw [delayAll]
          exact (delayAll_compiled hG Γ as).bind fun _ _ _ hds => .pure (.var hds)
      | lit l =>
          rw [delayAll]
          exact (delayAll_compiled hG Γ as).bind fun _ _ _ hds => .pure (.lit hds)
      | blob b =>
          rw [delayAll]
          exact (delayAll_compiled hG Γ as).bind fun _ _ _ hds => .pure (.blob hds)
      | _ =>
          rw [delayAll]
          · exact hthunk
          all_goals simp

theorem compileBranches_compiled (hG : G.Lawful) : ∀ (Γ : List (Term β σ))
    (brs : List (Branch (Term β σ))),
    G.Reserves Γ (compileBranches G.steps brs) fun Γ' cs => G.CompiledBranches Γ' brs cs
  | Γ, [] => by rw [compileBranches]; exact .pure .nil
  | Γ, ⟨p, b⟩ :: brs => by
      rw [compileBranches]
      refine (compile_compiled hG Γ b).bind fun Γ₁ c hΓ hc => ?_
      refine (compileBranches_compiled hG Γ₁ brs).bind fun Γ₂ cs hΓ hcs => ?_
      exact .pure (.cons (hc.mono hΓ) hcs)
end

/-! ## Values -/

section

variable (G : Ground β σ) (Γ : List (Term β σ))

/-- Heads of applications that reduction leaves as they are. -/
inductive Inert : Term β σ → Prop where
  | free {x} : Inert (.free x)
  | uvar {u} : Inert (.uvar u)
  | const {c} : G.steps.lookup c = none → G.env.unfoldable c = none → Inert (.const c)
  | lit {l} : Inert (.lit l)
  | blob {b} : Inert (.blob b)
  | declined {h s now} : G.stepOf h = some s → now.length = s.arity → (∀ t ∈ now, G.Normal t) →
      G.Acts (pure none) s now → Inert (h.apps now)

/-- Values made by evaluating good terms. -/
inductive Formed : Value β σ → Prop where
  | ctor {c args} : (∀ a ∈ args, Formed a) → Formed (.ctor c args)
  | lit {l} : Formed (.lit l)
  | blob {b} : G.Good (.blob b) → Formed (.blob b)
  | lam {n b code frame held} : G.like.Alike frame.length (.lam n b) (.lam n b) →
      G.Compiled Γ b code → (∀ f ∈ frame, Formed f) → (∀ a ∈ held, Formed a) → held.length < n →
      Formed (.lam n (.lam n b) code frame held)
  | step {t s held} : G.stepOf t = some s → G.Good t → (∀ a ∈ held, Formed a) →
      held.length < s.arity → Formed (.step t s held)
  | neutral {t args} : G.Inert t → G.Good t → (∀ l, t = .lit l → args ≠ []) →
      (∀ a ∈ args, Formed a) → Formed (.neutral t args)
  | stuck {s brs frame args} : G.Good (Value.stuck s brs frame []).head →
      G.Comes (pure (Value.stuck s brs frame []).head) (G.whnf (Value.stuck s brs frame []).head) →
      Formed s → (∀ f ∈ frame, Formed f) → (∀ a ∈ args, Formed a) → Formed (.stuck s brs frame args)
  | thunk {slot src frame code} : Γ[slot]? = some (src.instantiate 0 (sources frame)) →
      G.like.Alike frame.length src src → (∀ c, code = some c → G.Compiled Γ src c) →
      (∀ f ∈ frame, Formed f) → Formed (.thunk slot src frame code)

/-- Values that are not suspended. -/
def Forced (v : Value β σ) : Prop := G.Formed Γ v ∧ v.isThunk = false

end

theorem formed_nil : ∀ v ∈ ([] : List (Value β σ)), G.Formed Γ v :=
  fun _ hv => absurd hv List.not_mem_nil

theorem Formed.mono (hΓ : Γ <+: Γ') {v : Value β σ} (hv : G.Formed Γ v) : G.Formed Γ' v := by
  induction hv with
  | ctor _ ih => exact .ctor ih
  | lit => exact .lit
  | blob hb => exact .blob hb
  | lam hb hc _ _ hlt ihf ihh => exact .lam hb (hc.mono hΓ) ihf ihh hlt
  | step hs ht _ hlt ih => exact .step hs ht ih hlt
  | neutral ht hg hl _ ih => exact .neutral ht hg hl ih
  | stuck hg hstill _ _ _ ihs ihf ih => exact .stuck hg hstill ihs ihf ih
  | thunk hslot hsrc hc _ ih =>
      exact .thunk (getElem?_mono hΓ hslot) hsrc (fun c h => (hc c h).mono hΓ) ih

theorem Forced.mono (hΓ : Γ <+: Γ') {v : Value β σ} (hv : G.Forced Γ v) : G.Forced Γ' v :=
  ⟨hv.1.mono hΓ, hv.2⟩

theorem formed_mono (hΓ : Γ <+: Γ') {vs : List (Value β σ)} (h : ∀ v ∈ vs, G.Formed Γ v) :
    ∀ v ∈ vs, G.Formed Γ' v := fun v hv => (h v hv).mono hΓ

theorem formed_append {vs us : List (Value β σ)} (hvs : ∀ v ∈ vs, G.Formed Γ v)
    (hus : ∀ u ∈ us, G.Formed Γ u) : ∀ v ∈ vs ++ us, G.Formed Γ v :=
  List.forall_mem_append.mpr ⟨hvs, hus⟩

theorem good_sources_of {vs : List (Value β σ)} (h : ∀ v ∈ vs, G.Good v.source) :
    G.GoodArgs (sources vs) := by
  refine Term.alikeArgs_iff_forall₂.mpr (List.forall₂_same.mpr fun t ht => ?_)
  obtain ⟨v, hv, rfl⟩ := Machine.mem_sources.mp ht
  exact h v hv

/-- Good terms in a frame of good terms are good. -/
theorem good_instantiate {t : Term β σ} {frame : List (Value β σ)}
    (ht : G.like.Alike frame.length t t) (hframe : G.GoodArgs (sources frame)) :
    G.Good (t.instantiate 0 (sources frame)) := by
  have h := Term.Alike.instantiate (c := 0) hframe
    (by rwa [Nat.zero_add, Nat.add_zero, Machine.length_sources])
  rwa [Nat.zero_add] at h

theorem good_instantiateArgs {as : List (Term β σ)} {frame : List (Value β σ)}
    (has : G.like.AlikeArgs frame.length as as) (hframe : G.GoodArgs (sources frame)) :
    G.GoodArgs (Term.instantiateArgs 0 (sources frame) as) := by
  refine Term.alikeArgs_iff_forall₂.mpr (List.forall₂_same.mpr fun t ht => ?_)
  obtain ⟨a, ha, rfl⟩ := List.mem_map.mp ht
  exact good_instantiate (List.forall₂_same.mp (Term.alikeArgs_iff_forall₂.mp has) a ha) hframe

theorem good_instantiateBranches {t : Term β σ} {brs : List (Branch (Term β σ))} {frame : List (Value β σ)}
    (ht : G.like.Alike frame.length (.case t brs) (.case t brs)) (hframe : G.GoodArgs (sources frame)) :
    G.like.AlikeBranches 0 (Term.instantiateBranches (sources frame) brs)
      (Term.instantiateBranches (sources frame) brs) := by
  have h := good_instantiate ht hframe
  rw [Term.instantiate_case] at h
  cases h with
  | case _ hbrs => exact hbrs

/-- Well-formed values stand for good terms. -/
theorem Formed.good {v : Value β σ} (hv : G.Formed Γ v) : G.Good v.source := by
  induction hv with
  | ctor _ ih => exact Term.Alike.ctor.apps (good_sources_of ih)
  | lit => exact .lit
  | blob hb => exact hb
  | lam hb _ _ _ _ ihf ihh => exact (good_instantiate hb (good_sources_of ihf)).apps (good_sources_of ihh)
  | step _ ht _ _ ih => exact ht.apps (good_sources_of ih)
  | neutral _ ht _ _ ih => exact ht.apps (good_sources_of ih)
  | stuck hg _ _ _ _ _ _ ih => exact hg.apps (good_sources_of ih)
  | thunk _ hsrc _ _ ih => exact good_instantiate hsrc (good_sources_of ih)

theorem good_sources {vs : List (Value β σ)} (h : ∀ v ∈ vs, G.Formed Γ v) :
    G.GoodArgs (sources vs) := good_sources_of fun v hv => (h v hv).good

theorem Formed.args {v : Value β σ} (hv : G.Formed Γ v) : ∀ a ∈ v.args, G.Formed Γ a := by
  cases hv with
  | ctor h => exact h
  | lam _ _ _ h => exact h
  | step _ _ h => exact h
  | neutral _ _ _ h => exact h
  | stuck _ _ _ _ h => exact h
  | lit | blob | thunk => simp [Value.args]

/-! ## Closures -/

section

variable {arity : Nat} {b : Term β σ} {code : Code β σ} {frame held args : List (Value β σ)}

/-- A closure has been made from a lambda with as many variables. -/
theorem Forced.exists_body {src : Term β σ} (hf : G.Forced Γ (.lam arity src code frame held)) :
    ∃ b, src = .lam arity b := by
  obtain ⟨hf, -⟩ := hf
  cases hf with
  | lam => exact ⟨_, rfl⟩

/-- A closure that does not get enough arguments collects them. -/
theorem Forced.collect_lam (hf : G.Forced Γ (.lam arity (.lam arity b) code frame held))
    (hargs : ∀ a ∈ args, G.Formed Γ a) (hfew : (held ++ args).length < arity) :
    G.Forced Γ (.lam arity (.lam arity b) code frame (held ++ args)) := by
  obtain ⟨hf, -⟩ := hf
  cases hf with
  | lam hb hc hframe hheld => exact ⟨.lam hb hc hframe (formed_append hheld hargs) hfew, rfl⟩

/-- What is known of a closure that gets values for all its variables, and possibly further ones. -/
structure Saturated (G : Ground β σ) (Γ : List (Term β σ)) (arity : Nat) (b : Term β σ) (code : Code β σ)
    (frame vs : List (Value β σ)) : Prop where
  /-- It has variables. -/
  positive : 0 < arity
  /-- There are values for all of them. -/
  enough : arity ≤ vs.length
  /-- The code is that of the body. -/
  compiled : G.Compiled Γ b code
  /-- The values that the closure has captured are well formed. -/
  captured : ∀ f ∈ frame, G.Formed Γ f
  /-- So are those that the body is evaluated in. -/
  values : ∀ f ∈ (vs.take arity).reverse ++ frame, G.Formed Γ f
  /-- They are enough for the body. -/
  body : G.like.Alike ((vs.take arity).reverse ++ frame).length b b
  /-- The values that are left are well formed. -/
  later : ∀ a ∈ vs.drop arity, G.Formed Γ a

theorem Forced.saturated (hf : G.Forced Γ (.lam arity (.lam arity b) code frame held))
    (hargs : ∀ a ∈ args, G.Formed Γ a) (hle : arity ≤ (held ++ args).length) :
    G.Saturated Γ arity b code frame (held ++ args) := by
  obtain ⟨hf, -⟩ := hf
  cases hf with
  | lam hb hc hframe hheld hlt =>
      have hall := formed_append hheld hargs
      have hnow := fun a ha => hall a (List.mem_of_mem_take (i := arity) ha)
      refine ⟨Nat.lt_of_le_of_lt (Nat.zero_le _) hlt, hle, hc, hframe,
        formed_append (fun a ha => hnow a (List.mem_reverse.mp ha)) hframe, ?_,
        fun a ha => hall a (List.mem_of_mem_drop ha)⟩
      cases hb with
      | lam _ hb =>
          rwa [List.length_append, List.length_reverse, List.length_take_of_le hle, Nat.add_comm]

end

/-! ## Steps -/

section

variable {t : Term β σ} {s : Step σ} {held args : List (Value β σ)}

/-- A step that does not get enough arguments collects them. -/
theorem Forced.collect_step (hf : G.Forced Γ (.step t s held)) (hargs : ∀ a ∈ args, G.Formed Γ a)
    (hfew : (held ++ args).length < s.arity) : G.Forced Γ (.step t s (held ++ args)) := by
  obtain ⟨hf, -⟩ := hf
  cases hf with
  | step hs ht hheld => exact ⟨.step hs ht (formed_append hheld hargs) hfew, rfl⟩

/-- What is known of a step that gets all its arguments, and possibly further ones. -/
structure Due (G : Ground β σ) (Γ : List (Term β σ)) (t : Term β σ) (s : Step σ)
    (vs : List (Value β σ)) : Prop where
  /-- The term stands for the step. -/
  stepOf : G.stepOf t = some s
  /-- The term is good. -/
  good : G.Good t
  /-- The step has arguments. -/
  positive : 0 < s.arity
  /-- It gets all of them. -/
  enough : s.arity ≤ vs.length
  /-- They are well formed. -/
  now : ∀ a ∈ vs.take s.arity, G.Formed Γ a
  /-- So are the values that are left. -/
  later : ∀ a ∈ vs.drop s.arity, G.Formed Γ a

theorem Forced.due (hf : G.Forced Γ (.step t s held)) (hargs : ∀ a ∈ args, G.Formed Γ a)
    (hle : s.arity ≤ (held ++ args).length) : G.Due Γ t s (held ++ args) := by
  obtain ⟨hf, -⟩ := hf
  cases hf with
  | step hs ht hheld hlt =>
      have hall := formed_append hheld hargs
      exact ⟨hs, ht, Nat.lt_of_le_of_lt (Nat.zero_le _) hlt, hle,
        fun a ha => hall a (List.mem_of_mem_take ha), fun a ha => hall a (List.mem_of_mem_drop ha)⟩

end

end Ground

end TacticEngine
