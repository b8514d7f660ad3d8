/-
# TacticEngine.Proofs.Agreement.Engines -- a metaprogram comes to the same with either engine.

One engine has the application of a metaprogram reduced, another one has it compiled.  If native code cannot
tell engines apart, nor identities, then it makes no difference with which engine a metaprogram is run
(`engines_agree`).  That native code may run metaprograms in turn, with the engine that it was given, does not
matter: the runs that are nested in the two runs go alike too, to any depth.

Whatever is given to the two runs may differ in identities, and in the engines that are held by native values;
so may what the two runs leave behind.
-/
import TacticEngine.Proofs.Agreement.Switching
import TacticEngine.Proofs.Native.States
import TacticEngine.Proofs.Native.Switches

namespace TacticEngine.Native

open Leeway (backends)

variable {κ : Type}

/-! ## What runs come to -/

namespace Leeway

/-- The same has come of two runs: values that are related, or alike issues, which have one code, one place
and one text. -/
inductive SameEnd (Λ : Leeway κ) {α α' : Type} (V : α → α' → Prop) :
    Except (Issue κ) α → Except (Issue κ) α' → Prop where
  | value {a a'} : V a a' → SameEnd Λ V (.ok a) (.ok a')
  | issue {e e'} : Λ.issue e e' → e.code = e'.code → e.pos = e'.pos → e.display = e'.display →
      SameEnd Λ V (.error e) (.error e')

variable {Λ : Leeway κ} {E E' : Surroundings κ} {host : Host κ} {α α' : Type} {V : α → α' → Prop}

/-- Of runs that go alike, the second one ends if the first one does, and then alike. -/
theorem exists_settles {F : Nat → Act κ α} {F' : Nat → Act κ α'}
    (h : ∀ n, (Λ.tie True E E').Follows V (F n) fun l _ => F' l) {w w' : World κ} (hw : E.Of w)
    (hw' : E'.Of w') (hrange : InRange F' w') {x : Except (Issue κ) α} (hx : Settles F w x) :
    ∃ x', Settles F' w' x' ∧ Λ.SameEnd V x x' := by
  obtain ⟨N, hN⟩ := hx
  have hrun := hN N (Nat.le_refl N)
  rcases h N w w' ⟨hw, hw'⟩ with ⟨e, w₁, he, hmute⟩ | ⟨r, ⟨M, hM⟩, hm⟩
  · rw [he] at hrun
    rcases hmute with rfl | ⟨-, rfl⟩ <;> cases hrun
  · have hruns (n : Nat) (hn : n ≥ M) : F' n w' = r := hM n hn M (Nat.le_refl M)
    have hend {x'} (hx' : outcome? r = some x') : Settles F' w' x' :=
      ⟨M, fun n hn => (congrArg outcome? (hruns n hn)).trans hx'⟩
    generalize F N w = r₀ at hrun hm
    cases hm with
    | ok ha _ =>
        cases hrun
        exact ⟨_, hend rfl, .value ha⟩
    | error he _ =>
        cases he with
        | issue he =>
            cases hrun
            exact ⟨_, hend rfl, .issue he he.code_eq he.pos_eq he.display_eq⟩
        | overflow => cases hrun
    | escape he =>
        obtain ⟨-, rfl⟩ := he
        have hover := hrange M
        rw [hruns M (Nat.le_refl M)] at hover
        cases hover

/-- Runs of alike metaprograms with engines that may stand for each other go alike. -/
theorem follows_execute (hhost : host.Indifferent Λ) (hE : Λ.surroundings True E E')
    {engine engine' : Engine κ} (he : Λ.engine engine engine') {result result' : Codec κ} (hresult : Λ.codec result result')
    {t t' : Term κ} (ht : Λ.likeness.Alike 0 t t') {as as' : List (Term κ)}
    (has : Λ.likeness.AlikeArgs 0 as as') {s s' : ProofState κ} (hs : Λ.state s s') (n : Nat) :
    (Λ.tie True E E').Follows (Λ.outcome result result') (execute host n (engine.run host result t as s))
      fun l _ => execute host l (engine'.run host result' t' as' s') :=
  follows_engine hhost.heeds hE (fun _ _ => follows_evaluate hhost hE n) he hresult ht has hs

end Leeway

/-- The runs of a metaprogram with an engine, by fuel. -/
def Engine.runs (host : Host κ) (engine : Engine κ) (result : Codec κ) (t : Term κ) (as : List (Term κ))
    (s : ProofState κ) (n : Nat) : Act κ (Outcome κ result.Val) :=
  execute host n (engine.run host result t as s)

/-- **Engines agree.**  For native code that cannot tell one engine or identity from another, alike
metaprograms on alike arguments and states come to the same with any two engines that offer alike steps,
provided that neither run leaves the range of machine words.  If the one ends then so does the other; both
succeed with alike values or fail for alike reasons, and leave alike states, or both end with issues of one
code, at one place and with one text. -/
theorem engines_agree {host : Host κ} {same : κ → κ → Prop} (hhost : host.Indifferent (backends same))
    {engine engine' : Engine κ} (hnative : same engine.native engine'.native) {result result' : Codec κ}
    (hresult : (backends same).codec result result') {t t' : Term κ}
    (ht : (backends same).likeness.Alike 0 t t') {as as' : List (Term κ)}
    (has : (backends same).likeness.AlikeArgs 0 as as') {s s' : ProofState κ}
    (hs : (backends same).state s s') {w w' : World κ}
    (hw : List.Forall₂ (backends same).likeness.step w.registry w'.registry)
    (hrange : InRange (engine.runs host result t as s) w)
    (hrange' : InRange (engine'.runs host result' t' as' s') w') :
    (∀ x, Settles (engine.runs host result t as s) w x →
      ∃ x', Settles (engine'.runs host result' t' as' s') w' x' ∧
        (backends same).SameEnd ((backends same).outcome result result') x x') ∧
    ∀ x', Settles (engine'.runs host result' t' as' s') w' x' →
      ∃ x, Settles (engine.runs host result t as s) w x ∧
        (backends same).SameEnd ((backends same).outcome result result') x x' := by
  have hΛ := hhost.symm
  have he : (backends same).engine engine engine' := ⟨trivial, hnative⟩
  have hE : (backends same).surroundings True ⟨w.registry, w.debugging⟩ ⟨w'.registry, w'.debugging⟩ :=
    ⟨hw, .inl trivial⟩
  have hE' : (backends same).surroundings True ⟨w'.registry, w'.debugging⟩ ⟨w.registry, w.debugging⟩ :=
    ⟨(forall₂_flip hw).imp fun _ _ => (Leeway.likeness_symmetric hΛ).step, .inl trivial⟩
  -- Within the range of machine words it makes no difference if no span is counted.
  have hcounts {x} : Settles (engine.runs host result t as s) w.uncounted x ↔
      Settles (engine.runs host result t as s) w x := settles_uncounted_iff hrange
  have hcounts' {x} : Settles (engine'.runs host result' t' as' s') w'.uncounted x ↔
      Settles (engine'.runs host result' t' as' s') w' x := settles_uncounted_iff hrange'
  simp only [← hcounts, ← hcounts']
  have hof : Surroundings.Of ⟨w.registry, w.debugging⟩ w.uncounted := ⟨rfl, rfl, w.uncounted_uncounted⟩
  have hof' : Surroundings.Of ⟨w'.registry, w'.debugging⟩ w'.uncounted := ⟨rfl, rfl, w'.uncounted_uncounted⟩
  have hforth {x} (hx : Settles (engine.runs host result t as s) w.uncounted x) :=
    Leeway.exists_settles (Leeway.follows_execute hhost hE he hresult ht has hs) hof hof'
      (inRange_uncounted hrange') hx
  refine ⟨fun _ => hforth, fun x' hx' => ?_⟩
  obtain ⟨x, hx, -⟩ := Leeway.exists_settles
    (Leeway.follows_execute hhost hE' (Leeway.engine_symm hΛ he) (Leeway.codec_symm hΛ hresult)
      (ht.symm (Leeway.likeness_symmetric hΛ)) (has.symm (Leeway.likeness_symmetric hΛ))
      (Leeway.state_symm hΛ hs)) hof' hof (inRange_uncounted hrange) hx'
  obtain ⟨y, hy, hsame⟩ := hforth hx
  obtain rfl := hy.unique hx'
  exact ⟨x, hx, hsame⟩

/-! ## Twice a metaprogram -/

/-- A host without code that is told, by the label, how terms are evaluated; it offers a native tactic that
gets a metaprogram. -/
def offering : Host Backend :=
  { Host.silent Backend with
    natives := fun b => [Codec.tacticStep 0 "twice" [.thunk .int ⟨b, b⟩] .int (.host b)] }

/-- Run a metaprogram twice and add up what it succeeds with. -/
def twice (f : NativeTactic Backend) (s : ProofState Backend) : Program Backend (Outcome Backend Int) := do
  match ← f.call offering [] .int () s with
  | .failed e s => return .failed e s
  | .success m s =>
    match ← f.call offering [] .int () s with
    | .failed e s => return .failed e s
    | .success n s => return .success (m + n : Int) s

/-- What is done to one argument. -/
def twiceOf : (c r : Codec Backend) → c.Val → ProofState Backend → Program Backend (Outcome Backend r.Val)
  | .thunk .int _, .int, f, s => twice f s
  | _, _, _, s => return .fail "no code" s

/-- The host with the code: it runs the metaprogram twice, by the way to evaluate that is in use. -/
def doubling : Host Backend :=
  { offering with
    tactic := fun _ cs r => match cs with
      | [c] => fun vs s => twiceOf c r vs.1 s
      | _ => fun _ s => return .fail "no code" s }

section

variable {Λ : Leeway Backend}

theorem parallel_twice {f f' : NativeTactic Backend} (hf : Λ.tactic f f') {s s' : ProofState Backend}
    (hs : Λ.state s s') : Parallel doubling Λ (Λ.outcome .int .int) (twice f s) (twice f' s') := by
  have hcall {s s'} (hs : Λ.state s s') : Parallel doubling Λ (Λ.outcome .int .int)
      (f.call offering [] .int () s) (f'.call offering [] .int () s') := by
    cases hf with
    | host hl => exact .bind (.note _ _) fun _ _ _ => .pure (.failed (.message _) hs)
    | metaprogram he ht =>
        exact .bind (.allocate_of fun _ _ => .nil) fun _ _ hts => .run he .int ht hts hs
  refine .bind (hcall hs) fun o o' ho => ?_
  cases ho with
  | failed he hs => exact .pure (.failed he hs)
  | success hm hs =>
      refine .bind (hcall hs) fun o o' ho => ?_
      cases ho with
      | failed he hs => exact .pure (.failed he hs)
      | success hn hs => exact .pure (.success (congrArg₂ (· + ·) hm hn) hs)

theorem state_empty {name : String} :
    Λ.state { mainContext := { moduleName := name }, entryRange := {} }
      { mainContext := { moduleName := name }, entryRange := {} } :=
  ⟨rfl, ⟨rfl, .nil⟩, .nil, .nil, .nil⟩

theorem value_blank {c c' : Codec Backend} (hc : Λ.codec c c') : Λ.value c c' c.blank c'.blank := by
  induction hc with
  | unit => trivial
  | bool | int | size | string => rfl
  | term => exact .lit
  | state => exact state_empty
  | goal => exact ⟨rfl, rfl, .nil⟩
  | env => exact ⟨rfl, .nil⟩
  | failure => exact .message ""
  | list => exact .nil
  | option => exact .none
  | pair _ _ iha ihb => exact ⟨iha, ihb⟩
  | outcome => exact .failed (.message "") state_empty
  | function _ _ he | thunk _ he => exact .metaprogram he .lit

theorem heeds_doubling (hΛ : ∀ {b b'}, Λ.label b b' → Λ.backend b b') : doubling.Heeds Λ where
  natives {b b'} hb := .cons ⟨rfl, rfl, rfl, Leeway.body_iff.mpr
    (.tactic (.cons (.thunk .int ⟨hΛ hb, hb⟩) .nil) .int (.host hb))⟩ .nil
  rule _ _ _ := .pure .none
  direct _ := rfl
  total _ _ hr _ := value_blank hr
  tactic := by
    intro l l' as as' r r' vs vs' s s' _ has hr hvs hs
    rcases has with _ | ⟨hc, _ | ⟨_, _⟩⟩
    · exact .pure (.failed (.message _) hs)
    · cases hc with
      | thunk ha _ =>
          cases ha with
          | int =>
              cases hr with
              | int => exact parallel_twice hvs.1 hs
              | _ => exact .pure (.failed (.message _) hs)
          | _ => exact .pure (.failed (.message _) hs)
      | _ => exact .pure (.failed (.message _) hs)
    · exact .pure (.failed (.message _) hs)

end

theorem indifferent_doubling : doubling.Indifferent (backends fun _ _ => True) where
  symm := ⟨fun _ => trivial, fun _ => trivial⟩
  trans := ⟨fun _ _ => trivial, fun _ _ => trivial⟩
  heeds := heeds_doubling fun _ => trivial
  exact := heeds_doubling id

/-- A metaprogram that succeeds with 21. -/
def half : Term Backend := .lam 1 (.app (.ctor Names.success) [.lit (.int 21), .bvar 0])

/-- It is run twice. -/
def whole : Term Backend := .lam 1 (.app (.const "twice") [half, .bvar 0])

theorem alike_whole {Λ : Leeway Backend} : Λ.likeness.Alike 0 whole whole := by
  have hstate {k : Nat} : Λ.likeness.Alike (k + 1) (.bvar 0) (.bvar 0) := .bvar fun _ => Nat.succ_pos k
  have hhalf : Λ.likeness.Alike 1 half half :=
    .lam (fun _ => Nat.one_pos) (.app (fun _ => ⟨rfl, nofun⟩) .ctor (.cons .lit (.cons hstate .nil)))
  exact .lam (fun _ => Nat.one_pos)
    (.app (fun _ => ⟨rfl, nofun⟩) (.const trivial) (.cons hhalf (.cons hstate .nil)))

/-- A proof state without definitions. -/
def wholeState : ProofState Backend := { mainContext := { moduleName := "Doubling" }, entryRange := {} }

/-- The integer that a run succeeded with. -/
def number? : EStateM.Result (Halt (Content Backend)) (World Backend) (Outcome Backend Int) → Option Int
  | .ok (.success k _) _ => some k
  | _ => none

theorem settles_of_number? {F : Nat → Act Backend (Outcome Backend Int)}
    (hF : ∀ n, Lasts (F n) fun l _ => F l) {n : Nat} {w : World Backend} {k : Int}
    (h : number? (F n w) = some k) : InRange F w ∧ ∃ s, Settles F w (.ok (.success k s)) := by
  cases hr : F n w with
  | ok o w' =>
      have hends : Ends F w (.ok o w') := .of_ok hr
      rw [hr] at h
      cases o with
      | success k' s =>
          cases h
          exact ⟨hends.inRange hF rfl, s, hends.settles hF rfl⟩
      | failed => cases h
  | error e w' =>
      rw [hr] at h
      cases h

/-- What reduction has found the machine finds too; the runs that are nested in theirs agree as well. -/
theorem engines_agree_doubling :
    ∃ s, Settles (Engine.runs doubling ⟨.compiled, .compiled⟩ .int whole [] wholeState) {}
      (.ok (.success (42 : Int) s)) := by
  have hlasts (b : Backend) (n : Nat) : Lasts (Engine.runs doubling ⟨b, b⟩ .int whole [] wholeState n)
      fun l _ => Engine.runs doubling ⟨b, b⟩ .int whole [] wholeState l := lasts_execute doubling n _
  obtain ⟨hrange, s, hs⟩ := settles_of_number? (n := 8) (w := {}) (k := 42) (hlasts .reduce)
    (by decide +kernel)
  obtain ⟨hrange', -⟩ := settles_of_number? (n := 10) (w := {}) (k := 42) (hlasts .compiled)
    (by decide +kernel)
  obtain ⟨x, hx, hsame⟩ := (engines_agree indifferent_doubling trivial .int alike_whole .nil state_empty .nil
    hrange hrange').1 _ hs
  cases hsame with
  | value ho =>
      cases ho with
      | success hk hs' =>
          cases hk
          exact ⟨_, hx⟩

end TacticEngine.Native
