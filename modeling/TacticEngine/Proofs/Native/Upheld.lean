/-
# TacticEngine.Proofs.Native.Upheld -- what steps uphold, runs uphold.

A property of terms that is a likeness with themselves is upheld by a run if every step that is
available upholds it: given arguments with the property, its result has the property, and the steps it
may register are available ones.  Nothing else that an evaluator does can break such a property, and
nothing else can end an evaluation with an issue.
-/
import TacticEngine.Proofs.Native.Persistence

namespace TacticEngine.Native

variable {κ α : Type}

/-- The registered steps fit. -/
def Offers (L : Likeness (Content κ) (Body κ)) (w : World κ) : Prop := ∀ s ∈ w.registry, L.step s s

/-- The steps that fit uphold the likeness in the environment, and end with the given issues only. -/
structure Upheld (host : Host κ) (L : Likeness (Content κ) (Body κ)) (raised : Issue κ → Prop)
    (env : Env κ) : Prop where
  /-- Native values are like themselves only. -/
  strict : L.Strict
  /-- All constants may occur. -/
  const : ∀ c, L.const c
  /-- Definitions fit. -/
  unfoldable : ∀ c t, env.unfoldable c = some t → L.Alike 0 t t
  /-- Steps see terms only. -/
  direct : ∀ s, L.step s s → interpretDirect host s.body = none
  /-- There are no variables without value, or issues about them are among those given. -/
  unbound : L.closed ∨ ∀ i, raised (Machine.unbound i)
  /-- Steps take what fits to what fits. -/
  interp : ∀ s n ts, L.step s s → L.AlikeArgs 0 ts ts →
    Keeps (Offers L) raised (fun t? => ∀ t, t? = some t → L.Alike 0 t t)
      (Native.interp host n s.body env ts)

namespace Upheld

variable {host : Host κ} {L : Likeness (Content κ) (Body κ)} {raised : Issue κ → Prop}
  {env : Env κ}

/-! ## Evaluation -/

theorem fair (hL : L.Strict) : (Tie.keeping (Offers L) raised).Fair L where
  exhausted _ := nofun
  overflow := .inl fun _ => nofun
  fired := by
    rintro w _ s s' ts ts' ⟨rfl, hw⟩ hs hts
    obtain rfl := hL.step_eq hs
    obtain rfl := hts.eq hL
    exact ⟨rfl, hw⟩
  debug level text := by
    refine ((Lasts.const _).follows (V := fun _ => True) fun w hw => ?_).imp fun _ _ _ => trivial
    rw [Act.debug_run]
    cases w.debugging
    · exact ⟨trivial, hw⟩
    · exact ⟨trivial, hw⟩

theorem keepsArity (hL : L.Strict) : L.KeepsArity := by
  intro s s' hs
  obtain rfl := hL.step_eq hs
  exact ⟨rfl, rfl⟩

theorem setting_like (h : Upheld host L raised env) {steps : StepTable (Body κ)}
    (hsteps : ∀ s ∈ steps, L.step s s) (n : Nat) :
    Machine.Setting.Like (Tie.keeping (Offers L) raised) L (fun _ => True)
      (machineSetting host (Native.interp host n) steps env)
      (machineSetting host (Native.interp host n) steps env) (Native.interp host) where
  lookup c _ := by
    show Option.Rel L.step (steps.lookup c) (steps.lookup c)
    generalize hs : steps.lookup c = s?
    cases s? with
    | none => exact .none
    | some s => exact .some (hsteps s (List.mem_of_find?_eq_some hs))
  plain_of_lookup _ _ _ := trivial
  const_of_plain c _ := h.const c
  unfoldable c _ := by
    show Option.Rel (L.Alike 0) (env.unfoldable c) (env.unfoldable c)
    generalize ht : env.unfoldable c = t?
    cases t? with
    | none => exact .none
    | some t => exact .some (h.unfoldable c t ht)
  interp := by
    intro s s' ts ts' hs hts
    obtain rfl := h.strict.step_eq hs
    obtain rfl := hts.eq h.strict
    refine ((lasts_interp host n s.body env ts).follows (h.interp s n ts hs hts)).imp ?_
    rintro t? _ ⟨rfl, ht⟩
    cases t? with
    | none => exact .none
    | some t => exact .some (ht t rfl)
  direct := by
    intro s s' hs
    obtain rfl := h.strict.step_eq hs
    show Option.Rel _ (interpretDirect host s.body) (interpretDirect host s.body)
    rw [h.direct s hs]
    exact .none
  unbound := h.unbound.imp_right fun hr i => ⟨rfl, _, rfl, hr i⟩

/-- Reductions uphold what the steps uphold, and end with no other issues. -/
theorem keeps_evaluate (n : Nat) {r : Reduction (Content κ) (Body κ)}
    (h : Upheld host L raised r.env) (hsteps : ∀ s ∈ r.steps, L.step s s)
    (ht : L.Alike 0 r.tactic r.tactic) (has : L.AlikeArgs 0 r.args r.args) :
    Keeps (Offers L) raised (fun t => L.Alike 0 t t) (evaluate host n r) := by
  cases n with
  | zero => exact fun w hw => trivial
  | succ n =>
      refine (evaluate_follows (fair h.strict) (keepsArity h.strict) rfl
        (h.setting_like hsteps n) ht has).keeps fun t t' htt => ?_
      rwa [← htt.eq h.strict] at htt

end Upheld

/-! ## Programs -/

section

variable {L : Likeness (Content κ) (Body κ)} {raised : Issue κ → Prop}
  {reduce : Reduction (Content κ) (Body κ) → Act κ (Term κ)}

theorem keeps_run_bind {γ : Type} {V : α → Prop} {U : γ → Prop} {p : Program κ α}
    {f : α → Program κ γ} (hp : Keeps (Offers L) raised V (p.run reduce))
    (hf : ∀ a, V a → Keeps (Offers L) raised U ((f a).run reduce)) :
    Keeps (Offers L) raised U ((p >>= f).run reduce) := by
  show Keeps (Offers L) raised U ((p.bind f).run reduce)
  rw [Program.run_bind]
  exact hp.bind hf

theorem keeps_allocate (m : StateM Nat α) :
    Keeps (Offers L) raised (fun a => ∃ n, a = (m n).1) ((Program.allocate m).run reduce) :=
  fun w hw => ⟨⟨w.supply, rfl⟩, hw⟩

theorem keeps_registry :
    Keeps (Offers L) raised (fun ss => ∀ s ∈ ss, L.step s s) (Program.registry.run reduce) :=
  fun _ hw => ⟨hw, hw⟩

theorem keeps_note (e : Event (Content κ) (Body κ)) :
    Keeps (Offers L) raised (fun _ => True) ((Program.note e).run reduce) :=
  fun _ hw => ⟨trivial, hw⟩

theorem keeps_debug (text? : Unit → Option String) :
    Keeps (Offers L) raised (fun _ => True) ((Program.debug text?).run reduce) := by
  intro w hw
  have hrun : (Program.debug text?).run reduce w =
      (Act.debug .debug text? >>= fun _ => pure ()) w := rfl
  rw [hrun]
  refine Keeps.bind (V := fun _ => True) (fun w hw => ?_) (fun _ _ => Keeps.pure trivial) w hw
  rw [Act.debug_run]
  cases w.debugging
  · exact ⟨trivial, hw⟩
  · cases text? () with
    | none => trivial
    | some text => exact ⟨trivial, hw⟩

theorem keeps_reduce {V : Term κ → Prop} {r : Reduction (Content κ) (Body κ)}
    (h : Keeps (Offers L) raised V (reduce r)) :
    Keeps (Offers L) raised V ((Program.reduce r).run reduce) := by
  rwa [Program.run_reduce]

theorem keeps_leaveSpan (key : String) :
    Keeps (Offers L) raised (fun _ => True) (Act.leaveSpan key) := by
  refine .leaveSpan fun w hw => ?_
  obtain ⟨log, spans, jammed, hleft⟩ := w.leftSpan_eq key
  rw [hleft]
  exact hw

theorem keeps_span {V : α → Prop} {p : Program κ α} (m : Option String) (name : String)
    (h : Keeps (Offers L) raised V (p.run reduce)) :
    Keeps (Offers L) raised V ((p.span m name).run reduce) := by
  intro w hw
  have hp := h w.enteredSpan hw
  rw [Program.run_span]
  generalize p.run reduce w.enteredSpan = r at hp ⊢
  cases r with
  | ok a w' => exact (keeps_leaveSpan _).bind (fun _ _ => .pure hp.1) w' hp.2
  | error e w' =>
      cases e with
      | issue e => exact (keeps_leaveSpan _).bind (fun _ _ => .fail hp.1) w' hp.2
      | _ => trivial

end

/-! ## Issues become failures -/

/-- The failure that an issue is turned into. -/
def failureOf (e : Issue κ) : Failure κ :=
  match e.payload? with
  | some payload => .foreign payload
  | none => .issue e

section

variable (reduce : Reduction (Content κ) (Body κ) → Act κ (Term κ))

/-- A native tactic that is contained ends with a failure where it would end with an issue. -/
theorem run_contain (old : ProofState κ) (p : Program κ (Outcome κ α)) (w : World κ) :
    (contain old p).run reduce w =
      match p.run reduce w with
      | .ok o w' => .ok o w'
      | .error (.issue e) w' => .ok (.failed (failureOf e) old) w'
      | .error e w' => .error e w' := by
  have hattempt := Program.run_attempt reduce p w
  show (Program.bind p.attempt _).run reduce w = _
  rw [Program.run_bind]
  cases hr : p.run reduce w with
  | ok o w' =>
      rw [hr] at hattempt
      exact run_bind_ok hattempt
  | error e w' =>
      rw [hr] at hattempt
      cases e with
      | issue e =>
          rw [run_bind_ok hattempt]
          cases e <;> rfl
      | overflow => exact run_bind_error hattempt
      | exhausted => exact run_bind_error hattempt

end

/-- A contained native tactic upholds what it upholds by itself, if failures in the state that it was
entered with do, and it has no issues. -/
theorem keeps_contain {L : Likeness (Content κ) (Body κ)} {raised : Issue κ → Prop}
    {reduce : Reduction (Content κ) (Body κ) → Act κ (Term κ)} {V : Outcome κ α → Prop}
    {old : ProofState κ} {p : Program κ (Outcome κ α)}
    (hp : Keeps (Offers L) raised V (p.run reduce))
    (hV : ∀ e, raised e → V (.failed (failureOf e) old)) :
    Keeps (Offers L) (fun _ => False) V ((contain old p).run reduce) := by
  intro w hw
  have hpw := hp w hw
  rw [run_contain]
  generalize p.run reduce w = r at hpw ⊢
  cases r with
  | ok o w' => exact hpw
  | error e w' =>
      cases e with
      | issue e => exact ⟨hV e hpw.1, hpw.2⟩
      | _ => trivial

/-- The step of a native tactic upholds what the written outcomes of the tactic have, if the failures
that its issues become have it too. -/
theorem keeps_interp_tactic {L : Likeness (Content κ) (Body κ)} {host : Host κ}
    {cs : List (Codec κ)} {result : Codec κ} {f : NativeTactic κ} {n : Nat} {ts : List (Term κ)}
    (hf : ∀ vs s, Codec.decodeCall cs ts = some (vs, s) → Keeps (Offers L) (fun _ => True)
      (fun o => ∀ k, L.Alike 0 ((Codec.outcome result).encode o k).1
        ((Codec.outcome result).encode o k).1)
      ((f.call host cs result vs s).run (evaluate host n)))
    (hfail : ∀ vs s e k, Codec.decodeCall cs ts = some (vs, s) →
      L.Alike 0 ((Codec.outcome result).encode (.failed (failureOf e) s) k).1
        ((Codec.outcome result).encode (.failed (failureOf e) s) k).1) (env : Env κ) :
    Keeps (Offers L) (fun _ => False) (fun t? => ∀ t, t? = some t → L.Alike 0 t t)
      (interp host (n + 1) (.tactic cs result f) env ts) := by
  rw [interp, interpret]
  cases hcall : Codec.decodeCall cs ts with
  | none => exact Keeps.pure fun t ht => by cases ht
  | some p =>
      obtain ⟨vs, s⟩ := p
      refine keeps_run_bind (keeps_contain (hf vs s hcall) fun e _ k => hfail vs s e k hcall)
        fun o ho => ?_
      refine keeps_run_bind (keeps_allocate _) ?_
      rintro _ ⟨k, rfl⟩
      refine Keeps.pure ?_
      rintro t ⟨⟩
      exact ho k

/-! ## Engines -/

/-- A run ends with what its normal form says, or with the issue that it says nothing.  The normal form
has every property that the steps uphold. -/
theorem keeps_engine_run {host : Host κ} {L : Likeness (Content κ) (Body κ)}
    {raised : Issue κ → Prop} {engine : Engine κ} {s : ProofState κ} {tactic : Term κ}
    {args : List (Term κ)} (h : Upheld host L raised s.mainContext)
    (hnatives : ∀ st ∈ host.natives engine.native, L.step st st)
    (hs : ∀ n, L.Alike 0 (Codec.embed .proofState (.state s) n).1
      (Codec.embed .proofState (.state s) n).1)
    (ht : L.Alike 0 tactic tactic) (has : L.AlikeArgs 0 args args) (result : Codec κ) (n : Nat) :
    Keeps (Offers L)
      (fun e => raised e ∨ ∃ normal, L.Alike 0 normal normal ∧ e = stuckIssue s.mainContext normal)
      (fun o => ∃ normal, L.Alike 0 normal normal ∧ (Codec.outcome result).decode normal = some o)
      (execute host n (engine.run host result tactic args s)) := by
  unfold execute Engine.run
  refine keeps_run_bind (V := fun steps => ∀ st ∈ steps, L.step st st)
    (keeps_run_bind keeps_registry fun ss hss => Keeps.pure ?_) fun steps hsteps => ?_
  · intro st hst
    rcases List.mem_append.mp hst with hst | hst
    · exact hnatives st hst
    · exact hss st hst
  refine keeps_run_bind (keeps_allocate _) ?_
  rintro _ ⟨k, rfl⟩
  let r : Reduction (Content κ) (Body κ) :=
    ⟨engine.backend, steps, s.mainContext, tactic,
      args ++ [(Codec.embed .proofState (.state s) k).1]⟩
  have hnormal := Upheld.keeps_evaluate n (r := r) h hsteps ht (has.append (.cons (hs k) .nil))
  refine keeps_run_bind (V := fun t => L.Alike 0 t t) ?_ fun normal hnormal => ?_
  · exact keeps_span _ _ (keeps_reduce (hnormal.imp (fun _ => .inl) fun _ ht => ht))
  · split
    next o ho =>
      exact keeps_run_bind (keeps_debug _) fun _ _ => Keeps.pure ⟨normal, hnormal, ho⟩
    next =>
      exact keeps_run_bind (keeps_debug _) fun _ _ => Keeps.fail (.inr ⟨normal, hnormal, rfl⟩)

end TacticEngine.Native
