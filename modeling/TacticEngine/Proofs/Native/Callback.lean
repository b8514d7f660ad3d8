/-
# TacticEngine.Proofs.Native.Callback -- native functions survive being written.

A native tactic that is written as a term and read again has become a metaprogram with an engine to run
it.  Calling that writes the arguments, has the application of a native step reduced, and reads the
outcome.  If the codecs are for data, the tactic is entered once on the way, with the arguments of the
call, and what it ends with is what the call ends with; an issue has become a failure in the state of the
call.
-/
import TacticEngine.Proofs.Native.Containment
import TacticEngine.Proofs.Native.Firing
import TacticEngine.Proofs.Native.Runs

namespace TacticEngine.Native

open Codec (Vals AllFit Basic BuiltFrom decodeCall encodeAll embed tacticStep)

variable {κ α : Type}

/-! ## What the caller learns -/

/-- What a contained native tactic entered with state `old` ends with, if it would end with `res` by
itself. -/
def contained (old : ProofState κ) :
    EStateM.Result (Halt (Content κ)) (World κ) (Outcome κ α) →
      EStateM.Result (Halt (Content κ)) (World κ) (Outcome κ α)
  | .ok o w => .ok o w
  | .error (.issue e) w => .ok (.failed (failureOf e) old) w
  | .error e w => .error e w

/-- A call in state `s` that enters a native tactic ends like this if the tactic ends with `res`. -/
inductive Relayed (s : ProofState κ)
    (res : EStateM.Result (Halt (Content κ)) (World κ) (Outcome κ α)) :
    EStateM.Result (Halt (Content κ)) (World κ) (Outcome κ α) → Prop where
  /-- With the outcome; nothing more has happened. -/
  | told {o : Outcome κ α} {w w' : World κ} : contained s res = .ok o w →
      (w.debugging = true → Dumpable o.state) → w.Notes [] w' → Relayed s res (.ok o w')
  /-- The state that was left has to be shown and cannot. -/
  | unshown {o : Outcome κ α} {w w' : World κ} : contained s res = .ok o w →
      w.debugging = true → ¬ Dumpable o.state → w.Notes [] w' →
      Relayed s res (.error .overflow w')
  /-- The span of the call is to be counted, and cannot be. -/
  | uncounted {o : Outcome κ α} {w w' : World κ} : contained s res = .ok o w →
      w.hasRoom (callKey s) = false → w.Notes [] w' → Relayed s res (.error .overflow w')
  /-- The tactic was halted. -/
  | halted {e : Halt (Content κ)} {w w' : World κ} : contained s res = .error e w →
      w.Notes [] w' → Relayed s res (.error e w')

/-- Calling `g` fires a single step, whose native code is `f`, on terms that are read as the arguments of
the call; from there `f` is run on these arguments, and the call ends as `f` does.  Unless `f` ends, the
call does not. -/
def Relays (host : Host κ) (cs : List (Codec κ)) (r : Codec κ) (f g : NativeTactic κ) (vs : Vals cs)
    (s : ProofState κ) : Prop :=
  ∀ w : World κ, ∃ w₁,
    (∃ st ts, st.body = .tactic cs r f ∧ decodeCall cs ts = some (vs, s) ∧
      w.Notes [.fired st ts] w₁) ∧
    (∀ res, Ends (execute host · (f.call host cs r vs s)) w₁ res →
      (∀ o w₂, res = .ok o w₂ → Outcome.Passes r o) →
        ∃ res', Ends (execute host · (g.call host cs r vs s)) w res' ∧ Relayed s res res') ∧
    ∀ res', Ends (execute host · (g.call host cs r vs s)) w res' →
      ∃ res, Ends (execute host · (f.call host cs r vs s)) w₁ res

/-! ## The step of a native tactic -/

section

variable {host : Host κ} {cs : List (Codec κ)} {r : Codec κ} {f : NativeTactic κ}
  {ts : List (Term κ)} {vs : Vals cs} {s : ProofState κ} {n : Nat} {w w' : World κ}

theorem run_contain_eq : execute host n (contain s (f.call host cs r vs s)) w =
    contained s (execute host n (f.call host cs r vs s) w) := by
  refine (run_contain (evaluate host n) s (f.call host cs r vs s) w).trans ?_
  unfold execute
  generalize (f.call host cs r vs s).run (evaluate host n) w = res
  cases res with
  | ok o w => rfl
  | error e w => cases e <;> rfl

/-- The step of a native tactic gives the outcome of the contained tactic, written. -/
theorem interp_of_contained_ok (hcall : decodeCall cs ts = some (vs, s)) {o : Outcome κ r.Val}
    (h : contained s (execute host n (f.call host cs r vs s) w) = .ok o w') (env : Env κ) :
    interp host (n + 1) (.tactic cs r f) env ts w =
      .ok (some ((Codec.outcome r).encode o w'.supply).1)
        { w' with supply := ((Codec.outcome r).encode o w'.supply).2 } := by
  rw [interp, interpret, hcall]
  exact Program.run_bind_of_ok (run_contain_eq.trans h)

/-- It breaks off as the contained tactic does. -/
theorem interp_of_contained_error (hcall : decodeCall cs ts = some (vs, s)) {e : Halt (Content κ)}
    (h : contained s (execute host n (f.call host cs r vs s) w) = .error e w') (env : Env κ) :
    interp host (n + 1) (.tactic cs r f) env ts w = .error e w' := by
  rw [interp, interpret, hcall]
  exact Program.run_bind_of_error (run_contain_eq.trans h)

/-- To contain a tactic does not give it fuel. -/
theorem exhausted_of_contained {res : EStateM.Result (Halt (Content κ)) (World κ) (Outcome κ α)}
    (h : contained s res = .error .exhausted w) : res = .error .exhausted w := by
  cases res with
  | ok o w' => cases h
  | error e w' =>
      cases e with
      | issue e => cases h
      | _ => exact h

/-- A contained tactic does not end with an issue. -/
theorem contained_ne_issue (s : ProofState κ)
    (res : EStateM.Result (Halt (Content κ)) (World κ) (Outcome κ α)) (e : Issue κ) (w : World κ) :
    contained s res ≠ .error (.issue e) w := by
  intro h
  cases res with
  | ok o w' => cases h
  | error e' w' => cases e' <;> cases h

theorem Outcome.Passes.contained {res : EStateM.Result (Halt (Content κ)) (World κ) (Outcome κ r.Val)}
    (h : ∀ o w, res = .ok o w → Outcome.Passes r o) {o : Outcome κ r.Val}
    (ho : Native.contained s res = .ok o w) : Outcome.Passes r o := by
  cases res with
  | ok o' w' =>
      cases ho
      exact h _ _ rfl
  | error e w' =>
      cases e with
      | issue e =>
          cases ho
          cases e <;> exact trivial
      | _ => cases ho

end

/-! ## Calling what was read -/

section

variable {cs : List (Codec κ)} {vs : Vals cs} {s : ProofState κ}

/-- The terms that a call of a metaprogram passes to it. -/
def callTerms (cs : List (Codec κ)) (vs : Vals cs) (s : ProofState κ) (w : World κ) :
    List (Term κ) :=
  (encodeAll cs vs w.supply).1 ++ [(embed .proofState (.state s) (encodeAll cs vs w.supply).2).1]

theorem inert_callTerms (hcs : ∀ c ∈ cs, c.BuiltFrom Basic) (vs : Vals cs) (s : ProofState κ)
    (w : World κ) : ∀ t ∈ callTerms cs vs s w, Term.Inert t := by
  intro t ht
  rcases List.mem_append.mp ht with ht | ht
  · exact Codec.inert_encodeAll hcs vs w.supply t ht
  · obtain rfl := List.mem_singleton.mp ht
    exact .blob _

theorem callTerms_ne_nil (w : World κ) : callTerms cs vs s w ≠ [] := by
  simp [callTerms]

theorem length_callTerms (w : World κ) : (callTerms cs vs s w).length = cs.length + 1 := by
  simp [callTerms, Codec.length_encodeAll]

/-- The world in which the native tactic is entered when its step is called from `w`. -/
def callbackWorld (engine : Engine κ) (st : Step κ) (cs : List (Codec κ)) (vs : Vals cs)
    (s : ProofState κ) (w : World κ) : World κ :=
  enteredWorld engine.backend st (callTerms cs vs s w) (callWorld cs vs w)

variable (host : Host κ) {r : Codec κ} (f : NativeTactic κ) (s) (engine : Engine κ) (id : Nat)
  (name : String)

/-- The application of the step evaluates to the written outcome of the tactic. -/
theorem evaluate_callback (hcs : ∀ c ∈ cs, c.BuiltFrom Basic) (hr : r.BuiltFrom Basic)
    (hvs : AllFit cs vs) (w : World κ) {o : Outcome κ r.Val} (ho : Outcome.Passes r o)
    (w₂ : World κ) : ∃ N, ∀ n ≥ N,
      contained s (execute host n (f.call host cs r vs s)
        (callbackWorld engine (tacticStep id name cs r f) cs vs s w)) = .ok o w₂ →
      evaluate host (n + 2) (engine.reduction host cs (.native (tacticStep id name cs r f)) vs s w)
        (callWorld cs vs w) = .ok ((Codec.outcome r).encode o w₂.supply).1
          { w₂ with supply := ((Codec.outcome r).encode o w₂.supply).2 } := by
  obtain ⟨N, hN⟩ := evaluate_native (tacticStep id name cs r f) host rfl
    (inert_callTerms hcs vs s w) (callTerms_ne_nil w) (length_callTerms w)
    (Codec.inert_encode_outcome hr ho w₂.supply)
  refine ⟨N, fun n hn hcont => hN (n + 1) (by omega) _ _ _ _ _ ?_⟩
  exact interp_of_contained_ok (Codec.decodeCall_encodeAll hcs hvs s _ _) hcont _

/-- It breaks off as the tactic does. -/
theorem evaluate_callback_error (hcs : ∀ c ∈ cs, c.BuiltFrom Basic) (hvs : AllFit cs vs)
    (w : World κ) : ∃ N, ∀ n ≥ N, ∀ e w₂,
      contained s (execute host n (f.call host cs r vs s)
        (callbackWorld engine (tacticStep id name cs r f) cs vs s w)) = .error e w₂ →
      evaluate host (n + 2) (engine.reduction host cs (.native (tacticStep id name cs r f)) vs s w)
        (callWorld cs vs w) = .error e w₂ := by
  obtain ⟨N, hN⟩ := evaluate_native_error (tacticStep id name cs r f) host rfl
    (inert_callTerms hcs vs s w) (callTerms_ne_nil w) (length_callTerms w)
  refine ⟨N, fun n hn e w₂ hcont => hN (n + 1) (by omega) _ _ _ _ _ _ ?_⟩
  exact interp_of_contained_error (Codec.decodeCall_encodeAll hcs hvs s _ _) hcont _

/-- A metaprogram that is a native step, called on data, enters the native tactic and relays what it
ends with. -/
theorem relays_native (hcs : ∀ c ∈ cs, c.BuiltFrom Basic) (hr : r.BuiltFrom Basic)
    (hvs : AllFit cs vs) :
    Relays host cs r f (.metaprogram engine (.native (tacticStep id name cs r f))) vs s := by
  intro w
  let st := tacticStep id name cs r f
  obtain ⟨M, hM⟩ := evaluate_callback_error (r := r) s host f engine id name hcs hvs w
  refine ⟨callbackWorld engine st cs vs s w, ⟨st, callTerms cs vs s w, rfl,
    Codec.decodeCall_encodeAll hcs hvs s _ _,
    (notes_callWorld cs vs w).trans_left (notes_enteredWorld _ _ _ _)⟩, ?_, ?_⟩
  · intro res hres hpasses
    obtain ⟨N, hN⟩ := hres.eventually fun n => lasts_execute host n _
    cases hcont : contained s res with
    | ok o w₂ =>
        have ho : Outcome.Passes r o := Outcome.Passes.contained hpasses hcont
        obtain ⟨K, hK⟩ := evaluate_callback s host f engine id name hcs hr hvs w ho w₂
        have heval := hK (max N K) (by omega) (by rw [hN (max N K) (by omega), hcont])
        have hdrawn := World.Notes.drawn (fun n => ((Codec.outcome r).encode o n).2) w₂
        obtain ⟨w₃, hw₃, hrun⟩ | ⟨hroom, hrun⟩ := call_of_ok r heval
        case inr =>
          exact ⟨_, .of_overflow hrun, .uncounted hcont hroom (hdrawn.trans_left (.leftSpan _ _))⟩
        have hw₂ : w₂.Notes [] w₃ := hdrawn.trans_left hw₃
        have hdecode := Codec.decode_encode_outcome hr ho w₂.supply
        by_cases hd : w₂.debugging = true → Dumpable o.state
        · obtain ⟨w₄, hw₄, hverdict⟩ := verdict_of_some host (max N K + 2) s.mainContext
            hdecode fun hw => hd (hw₂.debugging.symm.trans hw)
          exact ⟨_, .of_ok (hrun.trans hverdict), .told hcont hd (hw₂.trans_left hw₄)⟩
        · obtain ⟨hd, hs⟩ := Classical.not_imp.mp hd
          have hverdict := verdict_of_not_dumpable host (max N K + 2) s.mainContext
            hdecode (hw₂.debugging.trans hd) hs
          exact ⟨_, .of_overflow (hrun.trans hverdict), .unshown hcont hd hs hw₂⟩
    | error e w₂ =>
        have heval := hM (max N M) (by omega) e w₂ (by rw [hN (max N M) (by omega), hcont])
        obtain ⟨w₃, hw₃, hrun⟩ | ⟨⟨issue, rfl⟩, -, -⟩ := call_of_error r heval
        -- What is contained does not break off with an issue, so the span is not left at all.
        case inr => exact absurd hcont (contained_ne_issue s res issue w₂)
        refine ⟨_, ⟨?_, _, hrun⟩, .halted hcont hw₃⟩
        rintro w' ⟨⟩
        exact hres.1 _ (exhausted_of_contained hcont)
  · intro res' hres'
    obtain ⟨N, hN⟩ := hres'.eventually fun n => lasts_execute host n _
    refine ⟨_, fun w₂ hexhausted => ?_, max N M, rfl⟩
    have heval := hM (max N M) (by omega) .exhausted w₂ (congrArg (contained s) hexhausted)
    obtain ⟨w₃, -, hrun⟩ | ⟨⟨issue, hissue⟩, -, -⟩ := call_of_error r heval
    case inr => cases hissue
    exact hres'.1 w₃ ((hN (max N M + 2) (by omega)).symm.trans hrun)

end

/-- A native tactic that was written as a function or as a suspended metaprogram, and read again, relays
the tactic, by either evaluation and whatever steps and definitions are in force.  What the arguments,
the state and the outcome are written as on the way is left alone by both evaluations. -/
theorem functions_survive {a r : Codec κ} (ha : a.BuiltFrom Basic) (hr : r.BuiltFrom Basic)
    (host : Host κ) (engine : Engine κ) (f : NativeTactic κ) (s : ProofState κ) :
    (∀ k, ∃ g, (Codec.function a r engine).decode ((Codec.function a r engine).encode f k).1 =
      some g ∧ ∀ x, a.Fits x → Relays host [a] r f g (x, ()) s) ∧
    (∀ k, ∃ g, (Codec.thunk r engine).decode ((Codec.thunk r engine).encode f k).1 = some g ∧
      Relays host [] r f g () s) ∧
    ∀ t : Term κ, (∃ x k, t = (a.encode x k).1) ∨ (∃ k, t = (Codec.state.encode s k).1) ∨
        (∃ o k, Outcome.Passes r o ∧ t = ((Codec.outcome r).encode o k).1) →
      ∃ N, ∀ n ≥ N, ∀ backend steps (env : Env κ) w,
        evaluate host n ⟨backend, steps, env, t, []⟩ w = .ok t w := by
  refine ⟨fun k => ⟨_, rfl, fun x hx => ?_⟩, fun k => ⟨_, rfl, ?_⟩, fun t ht => ?_⟩
  · exact relays_native s host f engine k Names.nativeTactic (by simpa using ha) hr ⟨hx, trivial⟩
  · exact relays_native s host f engine k Names.nativeTactic (by simp) hr trivial
  · refine evaluate_inert host ?_
    rcases ht with ⟨x, k, rfl⟩ | ⟨k, rfl⟩ | ⟨o, k, ho, rfl⟩
    · exact Codec.inert_encode ha x k
    · exact .blob _
    · exact Codec.inert_encode_outcome hr ho k

/-- A host with a native tactic that gives as many words as it is told, and makes the state deeper by as many
levels. -/
def repeating : Host Unit :=
  { Host.silent Unit with
    name := fun _ => "repeat"
    tactic := fun _ args result vs s =>
      match args, result, vs with
      | [.int], .list .string, (k, ()) =>
        return .success (List.replicate k.toNat "again") { s with depth := s.depth + k.toNat }
      | _, _, _ => return .fail "no number of words" s }

/-- It is entered once, and its value and the state that it leaves are those of the call. -/
theorem functions_survive_repeating : ∃ g w',
    (Codec.function .int (.list .string) ⟨.compiled, ()⟩).decode
      ((Codec.function .int (.list .string) ⟨.compiled, ()⟩).encode (.host ()) 0).1 = some g ∧
    Ends (execute repeating · (g.call repeating [.int] (.list .string) ((3 : Int), ()) idleState)) {}
      (.ok (.success ["again", "again", "again"] { idleState with depth := 3 }) w') ∧
    w'.trace = ["repeat"] := by
  obtain ⟨g, hg, hrelays⟩ := (functions_survive (a := .int) (r := .list .string) (.basic trivial)
    (.list (.basic trivial)) repeating ⟨.compiled, ()⟩ (.host ()) idleState).1 0
  obtain ⟨w₁, ⟨st, ts, -, -, hw₁⟩, hends, -⟩ := hrelays (3 : Int) trivial {}
  obtain ⟨res', hres', hrelayed⟩ := hends
    (.ok (.success ["again", "again", "again"] { idleState with depth := 3 })
      (w₁.noted (.entered "repeat"))) (.of_ok (n := 0) rfl) (by
      rintro _ _ ⟨⟩
      exact fun _ _ => trivial)
  cases hrelayed with
  | told ho hd hw =>
      cases ho
      refine ⟨g, _, hg, hres', ?_⟩
      rw [World.trace, hw.journal, List.reverse_nil, List.nil_append]
      show List.filterMap _ (Event.entered "repeat" :: w₁.journal).reverse = _
      rw [hw₁.journal]
      rfl
  | unshown ho hd hs hw =>
      cases ho
      cases hw₁.debugging.symm.trans hd
  | uncounted ho hroom hw =>
      cases ho
      have huncounted : w₁.Uncounted := hw₁.uncounted ⟨rfl, nofun⟩
      cases (World.hasRoom_of_uncounted huncounted _).symm.trans hroom
  | halted ho hw => cases ho

end TacticEngine.Native
