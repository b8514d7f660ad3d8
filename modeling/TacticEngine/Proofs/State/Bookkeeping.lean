/-
# TacticEngine.Proofs.State.Bookkeeping -- the tables of a proof state stay aligned.

An entry of the table of placeholders only ever grows: a solution is written once, a check noted once, and
the rest stays (`UVarDecl.Grows`).  An operation introduces one entry, together with its implicit, or lets one
entry grow (`Touched`); and it does nothing to the goals but to drop one, move one, or add one whose witness
is the entry it introduces (`openGoals_of_perform?`).  So any run of operations from the entry of a
metaprogram leaves the placeholders, the implicits and the goals in the accord that `Accord` describes.
-/
import TacticEngine.Proof.Operation
import Mathlib.Data.List.Nodup
import Mathlib.Data.List.Perm.Basic

namespace TacticEngine

open Source
open scoped List

variable {β σ : Type}

/-! ## Entries that only grow -/

/-- The second entry is the first with nothing taken away: a solution or a check may have been added. -/
structure UVarDecl.Grows (d d' : UVarDecl β σ) : Prop where
  type : d'.type = d.type
  reason : d'.reason = d.reason
  range : d'.range = d.range
  /-- A solution neither changes nor disappears. -/
  solution : ∀ t, d.solution = some t → d'.solution = some t
  /-- Nor does a check. -/
  checked : d.checked = true → d'.checked = true

theorem UVarDecl.Grows.refl (d : UVarDecl β σ) : d.Grows d := ⟨rfl, rfl, rfl, fun _ => id, id⟩

theorem UVarDecl.Grows.trans {d d' d'' : UVarDecl β σ} (h : d.Grows d') (h' : d'.Grows d'') :
    d.Grows d'' where
  type := h'.type.trans h.type
  reason := h'.reason.trans h.reason
  range := h'.range.trans h.range
  solution t ht := h'.solution t (h.solution t ht)
  checked hc := h'.checked (h.checked hc)

/-- The entry with what an implicit records. -/
def UVarDecl.implicit (u : Nat) (d : UVarDecl β σ) : Implicit := ⟨u, d.reason, d.range⟩

theorem UVarDecl.Grows.implicit_eq {d d' : UVarDecl β σ} (h : d.Grows d') (u : Nat) :
    d'.implicit u = d.implicit u := by
  rw [implicit, h.reason, h.range, implicit]

/-! ## Tables and lists -/

theorem UVarTable.modify_congr {α : Type} {t : UVarTable α} {u : Nat} {f g : α → α}
    (h : ∀ d, t.get? u = some d → f d = g d) : t.modify u f = t.modify u g := by
  rw [modify, modify, List.modify_eq_set_getElem?, List.modify_eq_set_getElem?]
  cases hd : t.entries[u]? with
  | none => rfl
  | some d => simp [h d hd]

theorem UVarTable.modify_eq_self {α : Type} {t : UVarTable α} {u : Nat} {f : α → α}
    (h : ∀ d, t.get? u = some d → f d = id d) : t.modify u f = t := by
  rw [modify_congr h, modify, List.modify_id]


theorem moveItem_perm {α : Type} (i j : Nat) (l m : List α) :
    (moveItem i j l m).1 ++ (moveItem i j l m).2 ~ l ++ m := by
  unfold moveItem
  split
  next => exact .refl _
  next a ha =>
    obtain ⟨hi, rfl⟩ := List.getElem?_eq_some_iff.mp ha
    calc l.eraseIdx i ++ (m.take j ++ l[i] :: m.drop j)
        ~ l.eraseIdx i ++ l[i] :: (m.take j ++ m.drop j) := List.perm_middle.append_left _
      _ ~ l[i] :: (l.eraseIdx i ++ (m.take j ++ m.drop j)) := List.perm_middle
      _ ~ l ++ m := by
        rw [List.take_append_drop]
        exact (List.getElem_cons_eraseIdx_perm hi).append_right m

namespace ProofState

variable {s s' s'' : ProofState β σ} {o : Operation β σ} {os ops : List (Operation β σ)} {a : Answer}
  {as : List Answer}

/-! ## What one operation does -/

/-- What an operation does to placeholders and implicits. -/
inductive Touched (s s' : ProofState β σ) : Prop where
  /-- A placeholder is introduced, and recorded among the implicits. -/
  | introduced (d : UVarDecl β σ) : s'.uvars = (s.uvars.push d).2 →
      s'.implicits = s.implicits ++ [d.implicit s.uvars.entries.length] → Touched s s'
  /-- At most one placeholder is added to, and the implicits stay. -/
  | grown (u : Nat) (f : UVarDecl β σ → UVarDecl β σ) :
      (∀ d, s.uvar? u = some d → d.Grows (f d)) → s'.uvars = s.uvars.modify u f →
      s'.implicits = s.implicits → Touched s s'

theorem Touched.of_eq (huvars : s'.uvars = s.uvars) (himplicits : s'.implicits = s.implicits) :
    Touched s s' :=
  .grown 0 id (fun d _ => .refl d) (huvars.trans (UVarTable.modify_eq_self fun _ _ => rfl).symm) himplicits

/-- Solving leaves the state alone, or gives a known placeholder its first solution. -/
theorem solve_cases (s : ProofState β σ) (u : Nat) (t : Term β σ) :
    (s.solve u t).2 = s ∨ ∃ d, s.uvar? u = some d ∧ d.solution = none ∧
      s.solve u t = (true, { s with uvars := s.uvars.modify u ({ · with solution := some t }) }) := by
  cases hd : s.uvar? u with
  | none =>
      left
      rw [solve, hd]
  | some d =>
      cases hold : d.solution with
      | some old =>
          left
          rw [solve, hd]
          simp only [hold]
      | none =>
          right
          refine ⟨d, rfl, hold, ?_⟩
          rw [solve, hd]
          simp only [hold]

/-- Solving a placeholder changes nothing but its solution. -/
theorem solve_eq_modify (s : ProofState β σ) (u : Nat) (t : Term β σ) :
    (s.solve u t).2 = { s with
      uvars := s.uvars.modify u fun d => { d with solution := (s.solve u t).2.solution? u } } := by
  rcases solve_cases s u t with hsame | ⟨d, hd, hnone, hsolve⟩
  · rw [hsame, UVarTable.modify_eq_self]
    intro d hd
    have hkept : s.solution? u = d.solution := by rw [solution?, uvar?, hd, Option.bind_some]
    rw [hkept, id]
  · have hsolved : (s.solve u t).2.solution? u = some t :=
      solution?_solve (by rw [solution?, hd, Option.bind_some, hnone]) (by rw [hd]; rfl)
    rw [hsolved, hsolve]

/-- Solving a placeholder changes nothing at all where the answer is that it has another solution or none. -/
theorem solve_eq_self {u : Nat} {t : Term β σ} (h : (s.solve u t).1 = false) :
    (s.solve u t).2 = s := by
  rcases solve_cases s u t with hsame | ⟨d, -, -, hsolve⟩
  · exact hsame
  · rw [hsolve] at h
    cases h

theorem touched_newUVar (s : ProofState β σ) (type : Term β σ) (reason : String) (range : FileSpan) :
    Touched s (s.newUVar type reason range).2 :=
  .introduced { type, reason, range } rfl rfl

theorem touched_solve (s : ProofState β σ) (u : Nat) (t : Term β σ) : Touched s (s.solve u t).2 := by
  rcases solve_cases s u t with hsame | ⟨d, hd, hnone, hsolve⟩
  · rw [hsame]
    exact .of_eq rfl rfl
  · rw [hsolve]
    refine .grown u ({ · with solution := some t })
      (fun d' hd' => ⟨rfl, rfl, rfl, fun t ht => ?_, id⟩) rfl rfl
    rw [hd] at hd'
    cases hd'
    rw [hnone] at ht
    cases ht

theorem eq_of_perform?_fresh (h : s.perform? .fresh = some (a, s')) :
    a = .number (s.freshness + 1) ∧ s' = { s with freshness := s.freshness + 1 } := by
  rw [perform?, fresh?] at h
  split at h
  · cases h
    exact ⟨rfl, rfl⟩
  · cases h

theorem touched_of_perform? (h : s.perform? o = some (a, s')) : Touched s s' := by
  cases o with
  | newUVar type reason range =>
      cases h
      exact touched_newUVar s type reason range
  | newGoal env type label irrelevant =>
      cases h
      exact .introduced { type, reason := "goal " ++ label, range := env.range } rfl rfl
  | solve u t =>
      cases h
      exact touched_solve s u t
  | markChecked u =>
      cases h
      exact .grown u ({ · with checked := true })
        (fun _ _ => ⟨rfl, rfl, rfl, fun _ => id, fun _ => rfl⟩) rfl rfl
  | fresh =>
      obtain ⟨-, rfl⟩ := eq_of_perform?_fresh h
      exact .of_eq rfl rfl
  | define | dismiss | postpone | reclaim =>
      cases h
      exact .of_eq rfl rfl

/-- What an operation does to the goals: it may take some away, and a new one is witnessed by the placeholder
that is introduced with it. -/
theorem openGoals_of_perform? (h : s.perform? o = some (a, s')) :
    s'.openGoals <+~ s.openGoals ∨ ∃ env type label irrelevant,
      o = .newGoal env type label irrelevant ∧ s' = (s.newGoal env type label irrelevant).2 := by
  cases o with
  | newGoal env type label irrelevant =>
      cases h
      exact .inr ⟨env, type, label, irrelevant, rfl, rfl⟩
  | solve u t =>
      have hs : (s.solve u t).2 = s' := congrArg Prod.snd (Option.some.inj h)
      rw [solve_eq_modify] at hs
      subst hs
      exact .inl (.refl _)
  | fresh =>
      obtain ⟨-, rfl⟩ := eq_of_perform?_fresh h
      exact .inl (.refl _)
  | dismiss =>
      cases h
      exact .inl ((List.drop_sublist 1 s.goals).append_right s.smtGoals).subperm
  | postpone i j =>
      cases h
      exact .inl (moveItem_perm i j s.goals s.smtGoals).subperm
  | reclaim i j =>
      cases h
      have hswap : (moveItem i j s.smtGoals s.goals).2 ++ (moveItem i j s.smtGoals s.goals).1
          ~ s.goals ++ s.smtGoals :=
        List.perm_append_comm.trans ((moveItem_perm i j _ _).trans List.perm_append_comm)
      exact .inl hswap.subperm
  | newUVar | markChecked | define =>
      cases h
      exact .inl (.refl _)

/-! ## What a run of operations keeps -/

/-- A goal has for its witness a placeholder that was introduced with it, by one of the operations. -/
structure Vouched (ops : List (Operation β σ)) (s : ProofState β σ) (g : Goal β σ)
    (d : UVarDecl β σ) : Prop where
  created : .newGoal g.env d.type g.label g.irrelevant ∈ ops
  known : s.uvar? g.witness = some d
  reason : d.reason = "goal " ++ g.label
  range : d.range = g.env.range

/-- Placeholders, implicits and goals as operations leave them. -/
structure Accord (ops : List (Operation β σ)) (s : ProofState β σ) : Prop where
  /-- There is an implicit for each placeholder, in order. -/
  implicits : s.implicits = s.uvars.entries.mapIdx UVarDecl.implicit
  /-- Every goal has a witness of its own making. -/
  vouched : ∀ g ∈ s.openGoals, ∃ d, Vouched ops s g d
  /-- No two goals share a witness. -/
  distinct : (s.openGoals.map (·.witness)).Nodup

/-- Every placeholder of the first state is in the second, with what it had. -/
def Below (s s' : ProofState β σ) : Prop :=
  ∀ u d, s.uvar? u = some d → ∃ d', s'.uvar? u = some d' ∧ d.Grows d'

theorem Below.refl (s : ProofState β σ) : Below s s := fun _ d hd => ⟨d, hd, .refl d⟩

theorem Below.trans (h : Below s s') (h' : Below s' s'') : Below s s'' := by
  intro u d hd
  obtain ⟨d', hd', hgrows⟩ := h u d hd
  obtain ⟨d'', hd'', hgrows'⟩ := h' u d' hd'
  exact ⟨d'', hd'', hgrows.trans hgrows'⟩

theorem Touched.below (h : Touched s s') : Below s s' := by
  intro u d hd
  cases h with
  | introduced e huvars _ =>
      rw [uvar?, huvars]
      exact ⟨d, UVarTable.get?_push_of_get? hd e, .refl d⟩
  | grown v f hf huvars _ =>
      rw [uvar?, huvars]
      by_cases huv : v = u
      · subst huv
        refine ⟨f d, ?_, hf d hd⟩
        rw [uvar?] at hd
        rw [UVarTable.get?_modify_self, hd]
        rfl
      · exact ⟨d, (UVarTable.get?_modify_of_ne huv _ f).trans hd, .refl d⟩

theorem Vouched.of_below {g : Goal β σ} {d : UVarDecl β σ} (h : Vouched ops s g d)
    (hs : Below s s') (o : Operation β σ) : ∃ d', Vouched (ops ++ [o]) s' g d' := by
  obtain ⟨d', hd', hgrows⟩ := hs _ d h.known
  refine ⟨d', ?_, hd', hgrows.reason.trans h.reason, hgrows.range.trans h.range⟩
  rw [hgrows.type]
  exact List.mem_append_left _ h.created

theorem accord_initial (env : Env β σ) (range : FileSpan) : Accord [] (initial env range) :=
  ⟨rfl, nofun, .nil⟩

theorem Touched.implicits (h : Touched s s')
    (hs : s.implicits = s.uvars.entries.mapIdx UVarDecl.implicit) :
    s'.implicits = s'.uvars.entries.mapIdx UVarDecl.implicit := by
  cases h with
  | introduced d huvars himplicits =>
      rw [himplicits, huvars, UVarTable.push, List.mapIdx_concat, hs]
  | grown u f hf huvars himplicits =>
      rw [himplicits, huvars, hs]
      refine List.ext_getElem? fun v => ?_
      rw [List.getElem?_mapIdx, List.getElem?_mapIdx, UVarTable.modify, List.getElem?_modify]
      cases hd : s.uvars.entries[v]? with
      | none => rfl
      | some d =>
          by_cases huv : u = v
          · subst huv
            simp [(hf d hd).implicit_eq]
          · simp [huv]

theorem Vouched.lt {g : Goal β σ} {d : UVarDecl β σ} (h : Vouched ops s g d) :
    g.witness < s.uvars.entries.length :=
  (List.getElem?_eq_some_iff.mp h.known).1

/-- One operation keeps the accord. -/
theorem Accord.perform? (h : Accord ops s) (ho : s.perform? o = some (a, s')) :
    Accord (ops ++ [o]) s' := by
  have ht := touched_of_perform? ho
  have hold : ∀ g ∈ s.openGoals, ∃ d, Vouched (ops ++ [o]) s' g d := by
    intro g hg
    obtain ⟨d, hd⟩ := h.vouched g hg
    exact hd.of_below ht.below o
  rcases openGoals_of_perform? ho with hsub | ⟨env, type, label, irrelevant, rfl, rfl⟩
  · refine ⟨ht.implicits h.implicits, fun g hg => hold g (hsub.subset hg), ?_⟩
    obtain ⟨gs, hperm, hgs⟩ := hsub
    rw [← (hperm.map _).nodup_iff]
    exact h.distinct.sublist (hgs.map _)
  · -- The new goal stands between the two lists, so its place does not matter.
    let g : Goal β σ := ⟨env, s.uvars.entries.length, irrelevant, label⟩
    have hperm : (s.newGoal env type label irrelevant).2.openGoals ~ g :: s.openGoals := by
      have heq : (s.newGoal env type label irrelevant).2.openGoals
          = s.goals ++ [g] ++ s.smtGoals := rfl
      rw [heq, List.append_assoc]
      exact List.perm_middle
    have hnew : ∃ d, Vouched (ops ++ [.newGoal env type label irrelevant])
        (s.newGoal env type label irrelevant).2 g d :=
      ⟨{ type, reason := "goal " ++ label, range := env.range },
        List.mem_append_right _ (List.mem_singleton_self _), UVarTable.get?_push_self s.uvars _, rfl, rfl⟩
    refine ⟨ht.implicits h.implicits, fun g' hg' => ?_, ?_⟩
    · rcases List.mem_cons.mp (hperm.subset hg') with rfl | hg'
      · exact hnew
      · exact hold g' hg'
    · rw [(hperm.map _).nodup_iff, List.map_cons, List.nodup_cons]
      refine ⟨fun hmem => ?_, h.distinct⟩
      obtain ⟨g', hg', heq⟩ := List.mem_map.mp hmem
      obtain ⟨d, hd⟩ := h.vouched g' hg'
      exact absurd heq (Nat.ne_of_lt hd.lt)

theorem performAll?_cons (h : s.performAll? (o :: os) = some (as, s'')) : ∃ a s' as',
    s.perform? o = some (a, s') ∧ s'.performAll? os = some (as', s'') ∧ as = a :: as' := by
  rw [performAll?] at h
  cases ho : s.perform? o with
  | none =>
      rw [ho] at h
      cases h
  | some p =>
      cases hos : p.2.performAll? os with
      | none =>
          rw [ho] at h
          simp [hos] at h
      | some q =>
          rw [ho] at h
          simp only [Option.bind_eq_bind, Option.bind_some, hos, Option.pure_def, Option.some.injEq,
            Prod.mk.injEq] at h
          obtain ⟨rfl, rfl⟩ := h
          exact ⟨p.1, p.2, q.1, rfl, hos, rfl⟩

theorem performAll?_append {as' : List Answer} {os' : List (Operation β σ)}
    (h : s.performAll? os = some (as, s')) (h' : s'.performAll? os' = some (as', s'')) :
    s.performAll? (os ++ os') = some (as ++ as', s'') := by
  induction os generalizing s as with
  | nil =>
      cases h
      exact h'
  | cons o os ih =>
      obtain ⟨a, t, bs, ho, hrest, rfl⟩ := performAll?_cons h
      simp only [List.cons_append, performAll?, ho, Option.bind_eq_bind, Option.bind_some, ih hrest,
        Option.pure_def]

/-- Any run of operations keeps the accord. -/
theorem Accord.performAll? (h : Accord ops s) (hos : s.performAll? os = some (as, s')) :
    Accord (ops ++ os) s' := by
  induction os generalizing ops s as with
  | nil =>
      cases hos
      rwa [List.append_nil]
  | cons o os ih =>
      obtain ⟨a, t, as', ho, hrest, rfl⟩ := performAll?_cons hos
      rw [List.append_cons]
      exact ih (h.perform? ho) hrest

theorem below_of_performAll? (hos : s.performAll? os = some (as, s')) : Below s s' := by
  induction os generalizing s as with
  | nil =>
      cases hos
      exact .refl _
  | cons o os ih =>
      obtain ⟨a, t, as', ho, hrest, rfl⟩ := performAll?_cons hos
      exact (touched_of_perform? ho).below.trans (ih hrest)

/-- An operation other than taking a fresh number leaves the last one alone. -/
theorem freshness_of_perform? (h : s.perform? o = some (a, s')) :
    (a.number? = none ∧ s'.freshness = s.freshness) ∨
      (a = .number (s.freshness + 1) ∧ s'.freshness = s.freshness + 1) := by
  cases o with
  | fresh =>
      obtain ⟨rfl, rfl⟩ := eq_of_perform?_fresh h
      exact .inr ⟨rfl, rfl⟩
  | solve u t =>
      have ha : Answer.verdict (s.solve u t).1 = a := congrArg Prod.fst (Option.some.inj h)
      have hs : (s.solve u t).2 = s' := congrArg Prod.snd (Option.some.inj h)
      rw [solve_eq_modify] at hs
      subst ha hs
      exact .inl ⟨rfl, rfl⟩
  | newUVar | newGoal | markChecked | define | dismiss | postpone | reclaim =>
      cases h
      exact .inl ⟨rfl, rfl⟩

/-- The fresh numbers of a run are those that follow the last one handed out before. -/
theorem freshNumbers_of_performAll? (hos : s.performAll? os = some (as, s')) :
    freshNumbers as = List.range' (s.freshness + 1) (freshNumbers as).length := by
  induction os generalizing s as with
  | nil =>
      cases hos
      rfl
  | cons o os ih =>
      obtain ⟨a, t, as', ho, hrest, rfl⟩ := performAll?_cons hos
      have hrun := ih hrest
      rcases freshness_of_perform? ho with ⟨ha, ht⟩ | ⟨rfl, ht⟩
      · have hsame : freshNumbers (a :: as') = freshNumbers as' := List.filterMap_cons_none ha
        rw [hsame, ← ht]
        exact hrun
      · have hmore : freshNumbers (.number (s.freshness + 1) :: as')
            = (s.freshness + 1) :: freshNumbers as' := rfl
        rw [hmore, List.length_cons, List.range'_succ, ← ht]
        exact congrArg _ hrun

/-! ## Bookkeeping -/

theorem Accord.wellFormed (h : Accord ops s) : s.wellFormed = true := by
  rw [ProofState.wellFormed, List.all_eq_true]
  intro g hg
  obtain ⟨d, hd⟩ := h.vouched g hg
  rw [Bool.and_eq_true, List.any_eq_true]
  refine ⟨by rw [hd.known]; rfl, d.implicit g.witness, ?_, beq_self_eq_true _⟩
  rw [h.implicits]
  have hentry : s.uvars.entries[g.witness]? = some d := hd.known
  have himplicit : (s.uvars.entries.mapIdx UVarDecl.implicit)[g.witness]? = some (d.implicit g.witness) := by
    rw [List.getElem?_mapIdx, hentry]
    rfl
  exact List.mem_of_getElem? himplicit

theorem Accord.uvars_eq_range (h : Accord ops s) :
    s.implicits.map (·.uvar) = List.range s.uvars.entries.length := by
  rw [h.implicits]
  refine List.ext_getElem? fun u => ?_
  rw [List.getElem?_map, List.getElem?_mapIdx]
  cases hd : s.uvars.entries[u]? with
  | none => rw [List.getElem?_eq_none (by simpa using hd)]; rfl
  | some d =>
      have hu : u < s.uvars.entries.length := (List.getElem?_eq_some_iff.mp hd).1
      rw [List.getElem?_range hu]
      rfl

theorem Accord.recorded (h : Accord ops s) {i : Implicit} (hi : i ∈ s.implicits) :
    ∃ d, s.uvar? i.uvar = some d ∧ i.reason = d.reason ∧ i.range = d.range := by
  rw [h.implicits] at hi
  obtain ⟨u, hu, rfl⟩ := List.mem_mapIdx.mp hi
  exact ⟨s.uvars.entries[u], List.getElem?_eq_getElem hu, rfl, rfl⟩

/-- After any operations since the entry of a metaprogram, looking back from any one of them:
* the implicits are the placeholders from 0 on, each once and in this order, with the reason and the range that
  the table has for it;
* every goal was introduced by one of the operations, and its witness is in the table with the range of the
  environment it was given; no two goals share a witness; and the state is well formed;
* type, reason and range of a placeholder are what they were, and a solution that it had is the one it has;
* solving a placeholder changes nothing but its solution, and nothing at all where the answer is no;
* no fresh number was handed out twice. -/
theorem bookkeeping {env : Env β σ} {range : FileSpan} {before after : List (Operation β σ)}
    {as₁ as₂ : List Answer} {s₁ s₂ : ProofState β σ}
    (h₁ : (initial env range).performAll? before = some (as₁, s₁))
    (h₂ : s₁.performAll? after = some (as₂, s₂)) :
    (s₂.implicits.map (·.uvar) = List.range s₂.uvars.entries.length ∧
      ∀ i ∈ s₂.implicits, ∃ d, s₂.uvar? i.uvar = some d ∧ i.reason = d.reason ∧ i.range = d.range) ∧
    ((∀ g ∈ s₂.openGoals, ∃ d, s₂.uvar? g.witness = some d ∧ d.range = g.env.range ∧
        .newGoal g.env d.type g.label g.irrelevant ∈ before ++ after) ∧
      (s₂.openGoals.map (·.witness)).Nodup ∧ s₂.wellFormed = true) ∧
    (∀ u d, s₁.uvar? u = some d → ∃ d', s₂.uvar? u = some d' ∧ d'.type = d.type ∧
      d'.reason = d.reason ∧ d'.range = d.range ∧ ∀ t, d.solution = some t → d'.solution = some t) ∧
    (∀ u t, (∃ x, (s₂.solve u t).2
        = { s₂ with uvars := s₂.uvars.modify u fun d => { d with solution := x } }) ∧
      ((s₂.solve u t).1 = false → (s₂.solve u t).2 = s₂)) ∧
    (freshNumbers (as₁ ++ as₂)).Nodup := by
  have haccord : Accord (before ++ after) s₂ := ((accord_initial env range).performAll? h₁).performAll? h₂
  refine ⟨⟨haccord.uvars_eq_range, fun i => haccord.recorded⟩, ⟨fun g hg => ?_, haccord.distinct,
    haccord.wellFormed⟩, fun u d hd => ?_, fun u t => ⟨⟨_, solve_eq_modify s₂ u t⟩, solve_eq_self⟩, ?_⟩
  · obtain ⟨d, hd⟩ := haccord.vouched g hg
    exact ⟨d, hd.known, hd.range, hd.created⟩
  · obtain ⟨d', hd', hgrows⟩ := below_of_performAll? h₂ u d hd
    exact ⟨d', hd', hgrows.type, hgrows.reason, hgrows.range, hgrows.solution⟩
  · rw [freshNumbers_of_performAll? (performAll?_append h₁ h₂)]
    exact List.nodup_range'

/-- A goal and a placeholder with its solution. -/
def openingSample : List (Operation Unit Unit) :=
  [.newGoal { moduleName := "Sample" } (.const "T") "main" false, .newUVar (.const "int") "hole" {},
    .fresh, .solve 1 (.lit (.int 3))]

/-- The goal goes to the solver and back behind another one; the placeholder is given another solution. -/
def shufflingSample : List (Operation Unit Unit) :=
  [.postpone 0 0, .newGoal { moduleName := "Side" } (.const "T") "side" true, .solve 1 (.lit (.int 4)),
    .markChecked 1, .reclaim 0 1, .fresh, .define "lemma" (some (.uvar 0)) false, .dismiss]

/-- The placeholder keeps its first solution, and the goal that is left the witness it has had. -/
theorem bookkeeping_shuffled : ∃ as₁ s₁ as₂ s₂,
    (initial { moduleName := "Sample" } {}).performAll? openingSample = some (as₁, s₁) ∧
      s₁.performAll? shufflingSample = some (as₂, s₂) ∧ s₂.openGoals.map (·.witness) = [0] ∧
      s₂.wellFormed = true ∧ (freshNumbers (as₁ ++ as₂)).Nodup ∧
      ∃ d, s₂.uvar? 1 = some d ∧ d.solution = some (.lit (.int 3)) := by
  obtain ⟨as₁, s₁, as₂, s₂, h₁, h₂, hgoals, d, hd, hsolved⟩ : ∃ as₁ s₁ as₂ s₂,
      (initial { moduleName := "Sample" } {}).performAll? openingSample = some (as₁, s₁) ∧
        s₁.performAll? shufflingSample = some (as₂, s₂) ∧ s₂.openGoals.map (·.witness) = [0] ∧
        ∃ d, s₁.uvar? 1 = some d ∧ d.solution = some (.lit (.int 3)) :=
    ⟨_, _, _, _, rfl, rfl, rfl, _, rfl, rfl⟩
  obtain ⟨-, ⟨-, -, hwf⟩, hkept, -, hfresh⟩ := bookkeeping h₁ h₂
  obtain ⟨d', hd', -, -, -, hsolution⟩ := hkept 1 d hd
  exact ⟨as₁, s₁, as₂, s₂, h₁, h₂, hgoals, hwf, hfresh, d', hd', hsolution _ hsolved⟩

end ProofState

end TacticEngine
