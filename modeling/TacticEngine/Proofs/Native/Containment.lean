/-
# TacticEngine.Proofs.Native.Containment -- no issue escapes from a native tactic.

Evaluation itself ends with an issue in two cases only: a variable has no value, or a value stays
suspended although it was forced.  Closed terms rule out both.  Pure functions have no issues, and
those of native tactics are turned into failures.  So if the steps that are available are of these two
kinds and give closed terms, a run can only end with the issue that its normal form is no outcome.

A native tactic that ends with an issue is seen by the metaprogram as one that failed in the state it
was entered with.
-/
import TacticEngine.Proofs.Native.States

namespace TacticEngine.Native

open Codec (decodeCall)

variable {κ : Type}

/-! ## Steps without issues -/

/-- What a native tactic's failure is written as is read as that failure. -/
theorem decode_encode_failureOf (e : Issue κ) (result : Codec κ) (s : ProofState κ) (n : Nat) :
    (Codec.outcome result).decode ((Codec.outcome result).encode (.failed (failureOf e) s) n).1 =
      some (.failed (failureOf e) s) := by
  cases e <;> rfl

/-- The body of a step that is a pure function or a native tactic. -/
def Body.Contained : Body κ → Prop
  | .rule _ => False
  | .total .. | .tactic .. => True

/-- Such a step never ends with an issue. -/
theorem interp_ne_issue {host : Host κ} {body : Body κ} (hbody : body.Contained) (n : Nat)
    (env : Env κ) (ts : List (Term κ)) {w w' : World κ} {e : Issue κ} :
    interp host n body env ts w ≠ .error (.issue e) w' := by
  intro h
  cases n with
  | zero => cases h
  | succ n =>
      cases body with
      | rule label => exact hbody.elim
      | total args result label =>
          rw [interp, interpret] at h
          cases hargs : Codec.decodeAll args ts with
          | none => rw [hargs] at h; cases h
          | some vs => rw [hargs] at h; cases h
      | tactic args result f =>
          rw [interp, interpret] at h
          cases hcall : decodeCall args ts with
          | none => rw [hcall] at h; cases h
          | some p =>
              rw [hcall] at h
              obtain ⟨vs, s⟩ := p
              have hrun : ((contain s (f.call host args result vs s)).bind fun o =>
                  (Program.allocate ((Codec.outcome result).encode o)).bind fun t =>
                    .pure (some t)).run (evaluate host n) w = .error (.issue e) w' := h
              rw [Program.run_bind] at hrun
              have hcontain := run_contain (evaluate host n) s (f.call host args result vs s) w
              generalize (f.call host args result vs s).run (evaluate host n) w = r at hcontain
              cases r with
              | ok o w₁ => rw [run_bind_ok hcontain] at hrun; cases hrun
              | error e' w₁ =>
                  cases e' with
                  | issue e' => rw [run_bind_ok hcontain] at hrun; cases hrun
                  | overflow => rw [run_bind_error hcontain] at hrun; cases hrun
                  | exhausted => rw [run_bind_error hcontain] at hrun; cases hrun

/-- Where a native tactic ends with an issue, its step gives the failure that the issue is turned
into, in the state that the tactic was entered with. -/
theorem interp_of_issue {host : Host κ} {cs : List (Codec κ)} {result : Codec κ}
    {f : NativeTactic κ} {ts : List (Term κ)} {vs : Codec.Vals cs} {s : ProofState κ}
    (hcall : decodeCall cs ts = some (vs, s)) {n : Nat} {w w' : World κ} {e : Issue κ}
    (he : (f.call host cs result vs s).run (evaluate host n) w = .error (.issue e) w')
    (env : Env κ) :
    ∃ w'', interp host (n + 1) (.tactic cs result f) env ts w = .ok
      (some ((Codec.outcome result).encode (.failed (failureOf e) s) w'.supply).1) w'' := by
  rw [interp, interpret, hcall]
  have hcontain := run_contain (evaluate host n) s (f.call host cs result vs s) w
  rw [he] at hcontain
  have hrun := run_bind_ok (f := fun o => ((Program.allocate ((Codec.outcome result).encode o)).bind
    fun t => .pure (some t)).run (evaluate host n)) hcontain
  rw [← Program.run_bind] at hrun
  exact ⟨_, hrun⟩

/-! ## Closed terms -/

section

variable (avail : Step κ → Prop)

/-- The term is closed, and every native step in it is available. -/
def Proper (t : Term κ) : Prop :=
  t.Closed ∧ ∀ u ∈ t.subterms, ∀ st, u = .native st → avail st

/-- The likeness that stands for `Proper`. -/
def closedLikeness : Likeness (Content κ) (Body κ) where
  closed := True
  canonical := False
  const _ := True
  blob := Eq
  step st st' := st = st' ∧ avail st

/-- The available steps, in an environment: they are pure functions and native tactics, and give closed
terms. -/
structure Confined (host : Host κ) (env : Env κ) : Prop where
  /-- Definitions are closed. -/
  unfoldable : ∀ c t, env.unfoldable c = some t → Proper avail t
  /-- Available steps are pure functions or native tactics. -/
  body : ∀ st, avail st → st.body.Contained
  /-- On closed arguments, an available step gives a closed term, and it registers only steps that are
  available. -/
  interp : ∀ st n ts, avail st → (∀ t ∈ ts, Proper avail t) → ∀ w r w', Registered avail w →
    interp host n st.body env ts w = .ok r w' →
      (∀ t, r = some t → Proper avail t) ∧ Registered avail w'

end

section

variable {avail : Step κ → Prop} {host : Host κ} {env : Env κ}

theorem closedLikeness_strict : (closedLikeness avail).Strict := ⟨id, And.left⟩

theorem proper_iff {t : Term κ} : Proper avail t ↔ (closedLikeness avail).Alike 0 t t := by
  constructor
  · intro h
    refine Term.alike_self (fun _ => h.1) False.elim fun u hu => ?_
    cases u with
    | blob b => exact rfl
    | native st => exact ⟨rfl, h.2 _ hu st rfl⟩
    | _ => trivial
  · intro h
    refine ⟨h.closedBelow trivial, ?_⟩
    rintro u hu st rfl
    exact (h.fits _ hu).2

theorem proper_args_iff {ts : List (Term κ)} :
    (∀ t ∈ ts, Proper avail t) ↔ (closedLikeness avail).AlikeArgs 0 ts ts := by
  rw [Term.alikeArgs_iff_forall₂, List.forall₂_same]
  exact forall₂_congr fun t _ => proper_iff

theorem offers_closed_eq : Offers (closedLikeness avail) = Registered avail :=
  funext fun _ => propext (forall₂_congr fun _ _ => and_iff_right rfl)

theorem interpretDirect_of_contained {body : Body κ} (h : body.Contained) :
    interpretDirect host body = none := by
  cases body with
  | rule label => exact h.elim
  | _ => rfl

theorem Confined.upheld (h : Confined avail host env) :
    Upheld host (closedLikeness avail) (fun _ => False) env where
  strict := closedLikeness_strict
  const _ := trivial
  unfoldable c t ht := proper_iff.mp (h.unfoldable c t ht)
  direct st hst := interpretDirect_of_contained (h.body st hst.2)
  unbound := .inl trivial
  interp st n ts hst hts := by
    rw [offers_closed_eq]
    intro w hw
    cases hr : Native.interp host n st.body env ts w with
    | ok r w' =>
        obtain ⟨ht, hw'⟩ := h.interp st n ts hst.2 (proper_args_iff.mpr hts) w r w' hw hr
        exact ⟨fun t hrt => proper_iff.mp (ht t hrt), hw'⟩
    | error e w' =>
        cases e with
        | issue e => exact absurd hr (interp_ne_issue (h.body st hst.2) n env ts)
        | _ => trivial

end

/-- If pure functions and native tactics are all that is available, and these give closed terms, then a
run on closed terms ends with no other issue than that it got stuck; and whatever issue a native tactic
ends with, the metaprogram sees the failure it is turned into, in the state that the tactic was
entered with. -/
theorem issues_contained {avail : Step κ → Prop} {host : Host κ} (engine : Engine κ)
    {tactic : Term κ} {args : List (Term κ)} {s : ProofState κ}
    (h : Confined avail host s.mainContext)
    (hnatives : ∀ st ∈ host.natives engine.native, avail st) (ht : Proper avail tactic)
    (has : ∀ t ∈ args, Proper avail t) :
    (∀ (result : Codec κ) n w e w', Registered avail w →
      execute host n (engine.run host result tactic args s) w = .error (.issue e) w' →
        ∃ normal, e = stuckIssue s.mainContext normal ∧ e.code = .tacticGotStuck) ∧
    (∀ (cs : List (Codec κ)) (result : Codec κ) (f : NativeTactic κ) (env : Env κ)
      (ts : List (Term κ)) (vs : Codec.Vals cs) (entered : ProofState κ) n w e w',
      decodeCall cs ts = some (vs, entered) →
      (f.call host cs result vs entered).run (evaluate host n) w = .error (.issue e) w' →
        ∃ t w'', interp host (n + 1) (.tactic cs result f) env ts w = .ok (some t) w'' ∧
          t = ((Codec.outcome result).encode (.failed (failureOf e) entered) w'.supply).1 ∧
          (Codec.outcome result).decode t = some (.failed (failureOf e) entered)) := by
  constructor
  · intro result n w e w' hw hr
    have hfit : ∀ st ∈ host.natives engine.native, (closedLikeness avail).step st st :=
      fun st hst => ⟨rfl, hnatives st hst⟩
    have hrun := keeps_engine_run h.upheld hfit (fun k => .blob rfl) (proper_iff.mp ht)
      (proper_args_iff.mp has) result n
    rw [offers_closed_eq] at hrun
    have hissue := hrun w hw
    rw [hr] at hissue
    obtain ⟨hfalse | ⟨normal, -, rfl⟩, -⟩ := hissue
    · exact hfalse.elim
    · exact ⟨normal, rfl, rfl⟩
  · intro cs result f env ts vs entered n w e w' hcall he
    obtain ⟨w'', hr⟩ := interp_of_issue hcall he env
    exact ⟨_, w'', hr, rfl, decode_encode_failureOf e result entered w'.supply⟩

/-- A failure that is written without a term of its own is a closed term. -/
theorem proper_encode_failed {avail : Step κ → Prop} {reason : Failure κ}
    (hreason : ∀ n, Proper avail (Codec.encodeFailure reason n).1) (s : ProofState κ)
    (result : Codec κ) (n : Nat) :
    Proper avail ((Codec.outcome result).encode (.failed reason s) n).1 :=
  proper_iff.mpr (Term.Alike.ctor.apps (.cons (proper_iff.mp (hreason n)) (.cons (.blob rfl) .nil)))

theorem proper_encodeFailure_failureOf {avail : Step κ → Prop} (e : Issue κ) (n : Nat) :
    Proper avail (Codec.encodeFailure (failureOf e) n).1 := by
  cases e <;> exact proper_iff.mpr (.blob rfl)

/-- The step of a native tactic of the silent host. -/
def silentStep : Step Unit := Codec.tacticStep 0 "silent" [] .unit (.host ())

/-- What fails with a message gives closed terms. -/
theorem confined_silent :
    Confined (· = silentStep) (Host.silent Unit) idleState.mainContext where
  unfoldable _ _ := nofun
  body := by
    rintro _ rfl
    trivial
  interp := by
    rintro _ n ts rfl - w r w' hw hr
    cases n with
    | zero => cases hr
    | succ n =>
        have hmessage k : Proper (· = silentStep)
            (Codec.encodeFailure (.message "no code") k).1 :=
          proper_iff.mpr (Term.Alike.ctor.apps (.cons .lit .nil))
        have hrun : Keeps (Offers (closedLikeness (· = silentStep))) (fun _ => False)
            (fun t? => ∀ t, t? = some t → (closedLikeness (· = silentStep)).Alike 0 t t)
            (interp (Host.silent Unit) (n + 1) (.tactic [] .unit (.host ()))
              idleState.mainContext ts) := by
          refine keeps_interp_tactic (fun vs s _ => ?_) (fun vs s e k _ => ?_) _
          · intro w hw
            exact ⟨fun k => proper_iff.mp (proper_encode_failed hmessage s .unit k), hw⟩
          · exact proper_iff.mp
              (proper_encode_failed (proper_encodeFailure_failureOf e) s .unit k)
        rw [offers_closed_eq] at hrun
        have hkept := hrun w hw
        rw [show interp (Host.silent Unit) (n + 1) (.tactic [] .unit (.host ()))
          idleState.mainContext ts w = .ok r w' from hr] at hkept
        exact ⟨fun t ht => proper_iff.mpr (hkept.1 t ht), hkept.2⟩

/-- A metaprogram that runs the step and goes on after a success only. -/
def hopeful : Term Unit :=
  .lam 1 (.case (.app (.native silentStep) [.bvar 0]) [⟨.ctor Names.success 2, .bvar 0⟩])

/-- It enters native code, which fails, and gets stuck on the failure.  Native code that runs a metaprogram which
gets stuck has failed. -/
theorem issues_contained_silent :
    (∃ e w' normal, execute (Host.silent Unit) 20
        (Engine.run (Host.silent Unit) ⟨.reduce, ()⟩ .unit hopeful [] idleState) {} = .error (.issue e) w' ∧
      w'.trace = [""] ∧ e = stuckIssue idleState.mainContext normal ∧ e.code = .tacticGotStuck) ∧
    ∃ e t w'', interp (Host.silent Unit) 10
        (.tactic [] .unit (.metaprogram ⟨.compiled, ()⟩ .unit)) idleState.mainContext
        [.blob ⟨.proofState, 0, .state idleState⟩] {} = .ok (some t) w'' ∧
      e.code = .tacticGotStuck ∧
      (Codec.outcome .unit).decode t = some (.failed (failureOf e) idleState) := by
  have htactic : Proper (· = silentStep) hopeful :=
    proper_iff.mpr (.lam nofun (.case (.app nofun (.native ⟨rfl, rfl⟩)
      (.cons (.bvar fun _ => by decide) .nil)) (.cons (.bvar fun _ => by decide) .nil)))
  have hargs : ∀ t ∈ ([] : List (Term Unit)), Proper (· = silentStep) t := nofun
  have hcontained := issues_contained ⟨.reduce, ()⟩ confined_silent nofun htactic hargs
  constructor
  · have hrun : ∃ e w', execute (Host.silent Unit) 20
        (Engine.run (Host.silent Unit) ⟨.reduce, ()⟩ .unit hopeful [] idleState) {} =
          .error (.issue e) w' ∧ w'.trace = [""] := ⟨_, _, rfl, rfl⟩
    obtain ⟨e, w', hr, htrace⟩ := hrun
    obtain ⟨normal, he, hcode⟩ := hcontained.1 .unit 20 {} e w' nofun hr
    exact ⟨e, w', normal, hr, htrace, he, hcode⟩
  · have hissue : ∃ e w', (NativeTactic.call (Host.silent Unit) [] .unit
        (.metaprogram ⟨.compiled, ()⟩ .unit) () idleState).run (evaluate (Host.silent Unit) 9) {} =
          .error (.issue e) w' ∧ e.code = .tacticGotStuck := ⟨_, _, rfl, rfl⟩
    obtain ⟨e, w', he, hcode⟩ := hissue
    obtain ⟨t, w'', hr, -, ht⟩ := hcontained.2 [] .unit (.metaprogram ⟨.compiled, ()⟩ .unit)
      idleState.mainContext [.blob ⟨.proofState, 0, .state idleState⟩] () idleState 9 {} e w' rfl he
    exact ⟨e, t, w'', hr, hcode, ht⟩

end TacticEngine.Native
