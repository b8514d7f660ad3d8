/-
# TacticEngine.Proofs.Native.Lockstep -- parallel programs go in lockstep.

Parallel programs, run in worlds with alike registries, end alike, if the reductions they ask for do.  For a
run of a metaprogram takes a snapshot of the registry, has one application reduced and reads the outcome off
the normal form; and each of these goes alike on alike things.  Even the issue that a run got stuck is the
same.
-/
import TacticEngine.Proofs.Agreement.Ground
import TacticEngine.Proofs.Likeness.Display
import TacticEngine.Proofs.Native.Parallel
import TacticEngine.Proofs.Run.Akin

namespace TacticEngine.Native

variable {κ α α' γ γ' : Type}

/-! ## Surroundings -/

/-- What of the world may matter to a run. -/
structure Surroundings (κ : Type) where
  /-- The registered steps. -/
  registry : List (Step κ)
  /-- Debugging output is wanted. -/
  debugging : Bool

/-- The world is one with these surroundings, and no span is counted in it. -/
structure Surroundings.Of (E : Surroundings κ) (w : World κ) : Prop where
  /-- The registered steps. -/
  registry : w.registry = E.registry
  /-- Whether debugging output is wanted. -/
  debugging : w.debugging = E.debugging
  /-- No span is counted. -/
  uncounted : w.Uncounted

namespace Surroundings.Of

variable {E : Surroundings κ} {w : World κ}

theorem drawn (h : E.Of w) (next : Nat → Nat) : E.Of (w.drawn next).2 :=
  ⟨h.registry, h.debugging, h.uncounted.drawn next⟩

theorem noted (h : E.Of w) (e : Event (Content κ) (Body κ)) : E.Of (w.noted e) :=
  ⟨h.registry, h.debugging, h.uncounted.noted e⟩

theorem logged (h : E.Of w) (r : LogRecord) : E.Of (w.logged r) :=
  ⟨h.registry, h.debugging, h.uncounted.logged r⟩

theorem enteredSpan (h : E.Of w) : E.Of w.enteredSpan :=
  ⟨h.registry, h.debugging, h.uncounted.enteredSpan⟩

theorem leftSpan (h : E.Of w) (key : String) : E.Of (w.leftSpan key) := by
  obtain ⟨log, spans, jammed, hw⟩ := w.leftSpan_eq key
  have huncounted := h.uncounted.leftSpan key
  rw [hw] at huncounted ⊢
  exact ⟨h.registry, h.debugging, huncounted⟩

theorem shown (h : E.Of w) (level : LogLevel) (text : String) : E.Of (w.shown level text) := by
  unfold World.shown
  split
  · exact h.logged _
  · exact h

end Surroundings.Of

/-- Alike surroundings; and if it matters whether a machine word is too small, debugging output is wanted in
both or in neither. -/
structure Leeway.surroundings (Λ : Leeway κ) (loose : Prop) (E E' : Surroundings κ) : Prop where
  registry : List.Forall₂ Λ.likeness.step E.registry E'.registry
  debugging : loose ∨ E.debugging = E'.debugging

/-- Runs in the given surroundings.  Nothing is claimed if the second one breaks off for certain reasons; and
a loose comparison claims nothing of a first one that leaves the range of machine words. -/
def Leeway.escaping (Λ : Leeway κ) (loose : Prop) (escape : Halt (Content κ) → Prop) (E E' : Surroundings κ) :
    Tie (Halt (Content κ)) (World κ) (Halt (Content κ)) (World κ) where
  state w w' := E.Of w ∧ E'.Of w'
  halt := SameHalt Λ.issue
  mute e _ := e = .exhausted ∨ loose ∧ e = .overflow
  escape e _ := escape e

/-- Runs in the given surroundings, of which a loose comparison claims nothing if they leave the range. -/
abbrev Leeway.tie (Λ : Leeway κ) (loose : Prop) (E E' : Surroundings κ) :
    Tie (Halt (Content κ)) (World κ) (Halt (Content κ)) (World κ) :=
  Λ.escaping loose (fun e => loose ∧ e = .overflow) E E'

/-- Applications of alike metaprograms to alike arguments, with alike steps and definitions. -/
structure Leeway.reduction (Λ : Leeway κ) (r r' : Reduction (Content κ) (Body κ)) : Prop where
  steps : List.Forall₂ Λ.likeness.step r.steps r'.steps
  env : Λ.env r.env r'.env
  tactic : Λ.likeness.Alike 0 r.tactic r'.tactic
  args : Λ.likeness.AlikeArgs 0 r.args r'.args
  applied : r.args ≠ []

namespace Leeway

variable {Λ : Leeway κ} {loose : Prop} {E E' : Surroundings κ}

theorem keepsNames : Λ.likeness.KeepsNames := ⟨And.left, And.left⟩

theorem fair {escape : Halt (Content κ) → Prop} : (Λ.escaping loose escape E E').Fair Λ.likeness where
  exhausted _ := .inl rfl
  overflow := .inr .overflow
  fired hw _ _ := ⟨hw.1.noted _, hw.2.noted _⟩
  debug level text := by
    refine .const fun w w' hw => ?_
    rw [Act.debug_of_eq_some level rfl, Act.debug_of_eq_some level rfl]
    exact .ok trivial ⟨hw.1.shown level text, hw.2.shown level text⟩

/-! ## Requests -/

section Programs

variable {reduce : Reduction (Content κ) (Body κ) → Act κ (Term κ)}
  {reduce' : Nat → Reduction (Content κ) (Body κ) → Act κ (Term κ)} {V : α → α' → Prop}
  {U : γ → γ' → Prop} {p : Program κ α} {p' : Program κ α'}

theorem follows_bind {f : α → Program κ γ} {f' : α' → Program κ γ'}
    (hp : (Λ.tie loose E E').Follows V (p.run reduce) fun l _ => p'.run (reduce' l))
    (hf : ∀ a a', V a a' →
      (Λ.tie loose E E').Follows U ((f a).run reduce) fun l _ => (f' a').run (reduce' l)) :
    (Λ.tie loose E E').Follows U ((p >>= f).run reduce) fun l _ => (p' >>= f').run (reduce' l) := by
  show (Λ.tie loose E E').Follows U ((p.bind f).run reduce) fun l _ => (p'.bind f').run (reduce' l)
  simp only [Program.run_bind]
  exact hp.bind hf

theorem follows_debug (hdebug : loose ∨ E.debugging = E'.debugging) {text? text?' : Unit → Option String}
    (h : (text? ()).isSome = (text?' ()).isSome) :
    (Λ.tie loose E E').Follows (fun _ _ => True) (Act.debug .debug text?)
      fun _ _ => Act.debug .debug text?' := by
  rintro w w' ⟨hw, hw'⟩
  have hsame : loose ∨ w.debugging = w'.debugging :=
    hdebug.imp_right fun h => hw.debugging.trans (h.trans hw'.debugging.symm)
  have hyields := Yields.const (Act.debug (β := Content κ) (σ := Body κ) .debug text?') w'
  rw [Act.debug_run] at hyields ⊢
  generalize text? () = t? at h ⊢
  generalize text?' () = t?' at h hyields
  cases t? with
  | some text =>
      obtain ⟨text', rfl⟩ := Option.isSome_iff_exists.mp h.symm
      refine .inr ⟨_, hyields, ?_⟩
      cases w.debugging <;> cases w'.debugging
      · exact .ok trivial ⟨hw, hw'⟩
      · exact .ok trivial ⟨hw, hw'.logged _⟩
      · exact .ok trivial ⟨hw.logged _, hw'⟩
      · exact .ok trivial ⟨hw.logged _, hw'.logged _⟩
  | none =>
      cases t?' with
      | some text' => cases h
      | none =>
          -- If debugging output is wanted on one side only, then only that side ends here.
          cases hd : w.debugging <;> cases hd' : w'.debugging <;> rw [hd'] at hyields <;>
            rw [hd, hd'] at hsame
          · exact .inr ⟨_, hyields, .ok trivial ⟨hw, hw'⟩⟩
          · exact .inr ⟨_, hyields, .escape ⟨hsame.resolve_right nofun, rfl⟩⟩
          · exact .inl ⟨_, _, rfl, .inr ⟨hsame.resolve_right nofun, rfl⟩⟩
          · exact .inr ⟨_, hyields, .error .overflow ⟨hw, hw'⟩⟩

theorem follows_aside (hdebug : loose ∨ E.debugging = E'.debugging) {r r' : Request (Content κ) (Body κ)}
    (h : Aside r r') : (Λ.tie loose E E').Follows (fun _ _ => True) ((Program.request r).run reduce)
      fun l _ => (Program.request r').run (reduce' l) := by
  refine .bind (V := fun _ _ => True) ?_ fun _ _ _ => .pure trivial
  cases h with
  | draw f g => exact .const fun _ _ hw => .ok trivial ⟨hw.1.drawn f, hw.2.drawn g⟩
  | note e e' => exact .const fun _ _ hw => .ok trivial ⟨hw.1.noted e, hw.2.noted e'⟩
  | log r r' => exact .const fun _ _ hw => .ok trivial ⟨hw.1.logged r, hw.2.logged r'⟩
  | enterSpan => exact .const fun _ _ hw => .ok trivial ⟨hw.1.enteredSpan, hw.2.enteredSpan⟩
  | leaveSpan key key' =>
      refine .const fun w w' hw => ?_
      show Tie.Matches _ _ (Act.leaveSpan key w) (Act.leaveSpan key' w')
      rw [Act.leaveSpan_of_uncounted hw.1.uncounted, Act.leaveSpan_of_uncounted hw.2.uncounted]
      exact .ok trivial ⟨hw.1.leftSpan key, hw.2.leftSpan key'⟩
  | debug h => exact follows_debug hdebug h

theorem follows_attempt (hp : (Λ.tie loose E E').Follows V (p.run reduce) fun l _ => p'.run (reduce' l)) :
    (Λ.tie loose E E').Follows (Λ.Attempted V) (p.attempt.run reduce)
      fun l _ => p'.attempt.run (reduce' l) := by
  simp only [funext (Program.run_attempt _ _)]
  refine hp.through Program.caught Program.caught (fun _ _ => id) (fun e w he => ?_) fun r r' hm => ?_
  · refine ⟨e, w, ?_, he⟩
    rcases he with rfl | ⟨_, rfl⟩ <;> rfl
  · cases hm with
    | ok ha hs => exact .ok (.ok ha) hs
    | error he hs =>
        cases he with
        | issue he => exact .ok (.error he) hs
        | overflow => exact .error .overflow hs
    | escape he =>
        obtain ⟨hloose, rfl⟩ := he
        exact .escape ⟨hloose, rfl⟩

theorem follows_ofExcept {x : Except (Issue κ) α} {x' : Except (Issue κ) α'} (h : Λ.Attempted V x x') :
    (Λ.tie loose E E').Follows V ((Program.ofExcept x).run reduce)
      fun l _ => (Program.ofExcept x').run (reduce' l) := by
  cases h with
  | ok ha => exact .pure ha
  | error he => exact .throw (.issue he)

theorem follows_span (hdebug : loose ∨ E.debugging = E'.debugging) {m m' : Option String} {name : String}
    (hp : (Λ.tie loose E E').Follows V (p.run reduce) fun l _ => p'.run (reduce' l)) :
    (Λ.tie loose E E').Follows V ((p.span m name).run reduce)
      fun l _ => (p'.span m' name).run (reduce' l) :=
  follows_bind (follows_aside hdebug .enterSpan) fun _ _ _ => follows_bind (follows_attempt hp)
    fun _ _ hx => follows_bind (follows_aside hdebug (.leaveSpan ..)) fun _ _ _ => follows_ofExcept hx

end Programs

/-! ## Whole runs -/

section Runs

variable {host : Host κ} {reduce : Reduction (Content κ) (Body κ) → Act κ (Term κ)}
  {reduce' : Nat → Reduction (Content κ) (Body κ) → Act κ (Term κ)}
  (hhost : host.Heeds Λ) (hE : Λ.surroundings loose E E')
  (hreduce : ∀ r r', Λ.backend r.backend r'.backend → Λ.reduction r r' →
    (Λ.tie loose E E').Follows (Λ.likeness.Alike 0) (reduce r) fun l _ => reduce' l r')

include hhost hE hreduce

/-- Running alike metaprograms with engines that may stand for each other. -/
theorem follows_engine {engine engine' : Engine κ} (he : Λ.engine engine engine')
    {result result' : Codec κ} (hresult : Λ.codec result result') {t t' : Term κ}
    (ht : Λ.likeness.Alike 0 t t') {as as' : List (Term κ)} (has : Λ.likeness.AlikeArgs 0 as as')
    {s s' : ProofState κ} (hs : Λ.state s s') :
    (Λ.tie loose E E').Follows (Λ.outcome result result')
      ((engine.run host result t as s).run reduce)
      fun l _ => (engine'.run host result' t' as' s').run (reduce' l) := by
  have hsteps : (Λ.tie loose E E').Follows (List.Forall₂ Λ.likeness.step)
      ((engine.steps host).run reduce) fun l _ => (engine'.steps host).run (reduce' l) := by
    refine .const fun w w' hw => .ok ?_ hw
    rw [hw.1.registry, hw.2.registry]
    exact List.rel_append (hhost.natives he.2) hE.registry
  have hstate : (Λ.tie loose E E').Follows (Λ.likeness.Alike 0)
      ((Program.allocate (Codec.embed .proofState (.state s))).run reduce)
      fun l _ => (Program.allocate (Codec.embed .proofState (.state s'))).run (reduce' l) :=
    .const fun w w' hw => .ok (alike_blob (.state hs) _ _) ⟨hw.1.drawn _, hw.2.drawn _⟩
  refine follows_bind hsteps fun steps steps' hsteps => follows_bind hstate fun u u' hu => ?_
  have hreduction : Λ.reduction ⟨engine.backend, steps, s.mainContext, t, as ++ [u]⟩
      ⟨engine'.backend, steps', s'.mainContext, t', as' ++ [u']⟩ :=
    ⟨hsteps, hs.mainContext, ht, has.append (.cons hu .nil), by simp⟩
  refine follows_bind (follows_span hE.debugging (V := Λ.likeness.Alike 0) ?_) fun v v' hv => ?_
  · simp only [Program.run_reduce]
    exact hreduce _ _ he.1 hreduction
  · have ho := rel_decode (.outcome hresult) hv
    generalize (Codec.outcome result).decode v = o? at ho
    generalize (Codec.outcome result').decode v' = o?' at ho
    cases ho with
    | @some o o' ho =>
        have hdump : (o.state.dump? "").isSome = (o'.state.dump? "").isSome := by
          cases ho with
          | success _ hs => exact hs.isSome_dump? ..
          | failed _ hs => exact hs.isSome_dump? ..
        refine follows_bind (follows_aside hE.debugging (.debug ?_)) fun _ _ _ => .pure ho
        simpa only [Option.isSome_map] using hdump
    | none =>
        refine follows_bind (follows_aside hE.debugging (.debug ?_)) fun _ _ _ => .throw (.issue ?_)
        · rfl
        rw [stuckIssue_eq keepsNames hs.mainContext.range_eq hv]
        exact .message _

/-- Parallel programs go alike. -/
theorem follows_parallel {V : α → α' → Prop} {p : Program κ α} {p' : Program κ α'}
    (hp : Parallel host Λ V p p') :
    (Λ.tie loose E E').Follows V (p.run reduce) fun l _ => p'.run (reduce' l) := by
  induction hp with
  | pure h => exact .pure h
  | fail h => exact .throw (.issue h)
  | overflow => exact .throw .overflow
  | aside h => exact follows_aside hE.debugging h
  | run he hresult ht has hs => exact follows_engine hhost hE hreduce he hresult ht has hs
  | bind _ _ ih ihf => exact follows_bind ih ihf
  | attempt _ ih => exact follows_attempt ih

end Runs

end Leeway

end TacticEngine.Native
