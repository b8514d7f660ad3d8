/-
# TacticEngine.Proofs.Likeness.State -- states, issues and outcomes that differ in what they hold only.

A relation between terms carries over to whatever holds terms: environments, goals, proof states, failures
and outcomes.  All else has to be equal.  Likewise a relation between the contents of objects carries over to
issues, which may hold a value of the host.

These liftings are monotone, and go along with reading a relation from right to left, with composing two, and
with looking at what is related to itself.
-/
import TacticEngine.Proofs.Likeness.Self
import TacticEngine.Outcome
import TacticEngine.StepTable

namespace TacticEngine

variable {β σ α γ : Type}

/-! ## Terms -/

/-- The second likeness asks for no more than the first one. -/
structure Likeness.Le (L L' : Likeness β σ) : Prop where
  closed : L'.closed → L.closed
  canonical : L'.canonical → L.canonical
  const : ∀ {c}, L.const c → L'.const c
  blob : ∀ {b b'}, L.blob b b' → L'.blob b b'
  step : ∀ {s s'}, L.step s s' → L'.step s s'

namespace Term

variable {L L' : Likeness β σ}

mutual
theorem Alike.mono (hL : L.Le L') : ∀ {k : Nat} {t t' : Term β σ}, L.Alike k t t' → L'.Alike k t t'
  | _, _, _, .const h => .const (hL.const h)
  | _, _, _, .ctor => .ctor
  | _, _, _, .bvar h => .bvar fun hc => h (hL.closed hc)
  | _, _, _, .free => .free
  | _, _, _, .uvar => .uvar
  | _, _, _, .lit => .lit
  | _, _, _, .app hc h has => .app (fun c => hc (hL.canonical c)) (h.mono hL) (has.mono hL)
  | _, _, _, .lam hn h => .lam (fun c => hn (hL.canonical c)) (h.mono hL)
  | _, _, _, .case h hbrs => .case (h.mono hL) (hbrs.mono hL)
  | _, _, _, .ascribed h h₂ => .ascribed (h.mono hL) (h₂.mono hL)
  | _, _, _, .annotated h => .annotated (h.mono hL)
  | _, _, _, .reify h => .reify (h.mono hL)
  | _, _, _, .blob h => .blob (hL.blob h)
  | _, _, _, .native h => .native (hL.step h)

theorem AlikeArgs.mono (hL : L.Le L') : ∀ {k : Nat} {as as' : List (Term β σ)},
    L.AlikeArgs k as as' → L'.AlikeArgs k as as'
  | _, _, _, .nil => .nil
  | _, _, _, .cons h has => .cons (h.mono hL) (has.mono hL)

theorem AlikeBranches.mono (hL : L.Le L') : ∀ {k : Nat} {brs brs' : List (Branch (Term β σ))},
    L.AlikeBranches k brs brs' → L'.AlikeBranches k brs brs'
  | _, _, _, .nil => .nil
  | _, _, _, .cons h hbrs => .cons (h.mono hL) (hbrs.mono hL)
end

end Term

/-! ## Options and lists -/

theorem rel_imp {R R' : α → γ → Prop} {a? : Option α} {b? : Option γ} (hR : ∀ a b, R a b → R' a b)
    (h : Option.Rel R a? b?) : Option.Rel R' a? b? := by
  cases h with
  | none => exact .none
  | some h => exact .some (hR _ _ h)

theorem rel_flip {R : α → γ → Prop} {a? : Option α} {b? : Option γ} (h : Option.Rel R a? b?) :
    Option.Rel (flip R) b? a? := by
  cases h with
  | none => exact .none
  | some h => exact .some h

theorem rel_comp {δ : Type} {R : α → γ → Prop} {S : γ → δ → Prop} {T : α → δ → Prop}
    {a? : Option α} {b? : Option γ} {c? : Option δ} (hT : ∀ a b c, R a b → S b c → T a c)
    (h : Option.Rel R a? b?) (h' : Option.Rel S b? c?) : Option.Rel T a? c? := by
  cases h with
  | none =>
      cases h' with
      | none => exact .none
  | some h =>
      cases h' with
      | some h' => exact .some (hT _ _ _ h h')

theorem rel_same {R R' : α → α → Prop} {a? : Option α} (hR : ∀ a, R a a → R' a a)
    (h : Option.Rel R a? a?) : Option.Rel R' a? a? := by
  cases a? with
  | none => exact .none
  | some a =>
      cases h with
      | some h => exact .some (hR a h)

theorem forall₂_flip {R : α → γ → Prop} {as : List α} {bs : List γ} (h : List.Forall₂ R as bs) :
    List.Forall₂ (flip R) bs as := by
  induction h with
  | nil => exact .nil
  | cons h _ ih => exact .cons h ih

theorem forall₂_comp {δ : Type} {R : α → γ → Prop} {S : γ → δ → Prop} {T : α → δ → Prop}
    (hT : ∀ a b c, R a b → S b c → T a c) {as : List α} {bs : List γ} {cs : List δ}
    (h : List.Forall₂ R as bs) (h' : List.Forall₂ S bs cs) : List.Forall₂ T as cs := by
  induction h generalizing cs with
  | nil => cases h' with | nil => exact .nil
  | cons h _ ih => cases h' with | cons h' hrest => exact .cons (hT _ _ _ h h') (ih hrest)

theorem forall₂_self {R R' : α → α → Prop} {as : List α} (hR : ∀ a, R a a → R' a a)
    (h : List.Forall₂ R as as) : List.Forall₂ R' as as :=
  List.forall₂_same.mpr fun a ha => hR a (List.forall₂_same.mp h a ha)

/-! ## Environments -/

section

variable (R : Term β σ → Term β σ → Prop)

/-- Definitions of one name with related bodies. -/
structure Definition.Rel (d d' : String × Definition β σ) : Prop where
  name : d.1 = d'.1
  recursive : d.2.recursive = d'.2.recursive
  body : Option.Rel R d.2.body d'.2.body

/-- An environment without its definitions. -/
def Env.bare (e : Env β σ) : Env β σ := { e with defs := [] }

/-- Environments with related definitions. -/
structure Env.Rel (e e' : Env β σ) : Prop where
  bare : e.bare = e'.bare
  defs : List.Forall₂ (Definition.Rel R) e.defs e'.defs

/-- The entry of a placeholder without its terms. -/
def UVarDecl.bare (d : UVarDecl β σ) : UVarDecl β σ := { d with type := .unit, solution := none }

/-- Entries of placeholders with related terms. -/
structure UVarDecl.Rel (d d' : UVarDecl β σ) : Prop where
  bare : d.bare = d'.bare
  type : R d.type d'.type
  solution : Option.Rel R d.solution d'.solution

/-- A goal without its environment. -/
def Goal.bare (g : Goal β σ) : Goal β σ := { g with env := { moduleName := "" } }

/-- Goals in related environments. -/
structure Goal.Rel (g g' : Goal β σ) : Prop where
  bare : g.bare = g'.bare
  env : Env.Rel R g.env g'.env

/-- A proof state without its environment, goals and placeholders. -/
def ProofState.bare (s : ProofState β σ) : ProofState β σ :=
  { s with mainContext := { moduleName := "" }, goals := [], smtGoals := [], uvars := {} }

/-- Proof states with related terms. -/
structure ProofState.Rel (s s' : ProofState β σ) : Prop where
  bare : s.bare = s'.bare
  mainContext : Env.Rel R s.mainContext s'.mainContext
  goals : List.Forall₂ (Goal.Rel R) s.goals s'.goals
  smtGoals : List.Forall₂ (Goal.Rel R) s.smtGoals s'.smtGoals
  uvars : List.Forall₂ (UVarDecl.Rel R) s.uvars.entries s'.uvars.entries

end

/-! ## Issues, failures and outcomes -/

/-- Issues with related values of the host. -/
inductive Issue.Rel (O : β → β → Prop) : Issue β → Issue β → Prop where
  | message (m : Message) : Issue.Rel O (.message m) (.message m)
  | foreign {p p' : Object β} : O p.content p'.content → Issue.Rel O (.foreign p) (.foreign p')
  | nil : Issue.Rel O (.reported []) (.reported [])
  | cons {e e' es es'} : Issue.Rel O e e' → Issue.Rel O (.reported es) (.reported es') →
      Issue.Rel O (.reported (e :: es)) (.reported (e' :: es'))

section

variable (R : Term β σ → Term β σ → Prop) (O : β → β → Prop)

/-- Failures for the same reason, with related terms and values of the host. -/
inductive Failure.Rel : Failure β σ → Failure β σ → Prop where
  | issue {e e'} : Issue.Rel O e e' → Failure.Rel (.issue e) (.issue e')
  | message (text : String) : Failure.Rel (.message text) (.message text)
  | exception {t t'} : R t t' → Failure.Rel (.exception t) (.exception t')
  | foreign {p p' : Object β} : O p.content p'.content → Failure.Rel (.foreign p) (.foreign p')

/-- Outcomes of one kind, with related values or failures, in related states. -/
inductive Outcome.Rel (V : α → γ → Prop) : Outcome β σ α → Outcome β σ γ → Prop where
  | success {v v' s s'} : V v v' → ProofState.Rel R s s' → Outcome.Rel V (.success v s) (.success v' s')
  | failed {e e' s s'} : Failure.Rel R O e e' → ProofState.Rel R s s' →
      Outcome.Rel V (.failed e s) (.failed e' s')

end

variable {R R' S T : Term β σ → Term β σ → Prop} {O O' P Q : β → β → Prop}

/-! ## Monotonicity -/

section

variable (hR : ∀ t t', R t t' → R' t t')

include hR

theorem Definition.Rel.imp {d d' : String × Definition β σ} (h : Definition.Rel R d d') :
    Definition.Rel R' d d' :=
  ⟨h.name, h.recursive, rel_imp hR h.body⟩

theorem Env.Rel.imp {e e' : Env β σ} (h : e.Rel R e') : e.Rel R' e' :=
  ⟨h.bare, h.defs.imp fun _ _ hd => hd.imp hR⟩

theorem UVarDecl.Rel.imp {d d' : UVarDecl β σ} (h : d.Rel R d') : d.Rel R' d' :=
  ⟨h.bare, hR _ _ h.type, rel_imp hR h.solution⟩

theorem Goal.Rel.imp {g g' : Goal β σ} (h : g.Rel R g') : g.Rel R' g' := ⟨h.bare, h.env.imp hR⟩

theorem ProofState.Rel.imp {s s' : ProofState β σ} (h : s.Rel R s') : s.Rel R' s' where
  bare := h.bare
  mainContext := h.mainContext.imp hR
  goals := h.goals.imp fun _ _ hg => hg.imp hR
  smtGoals := h.smtGoals.imp fun _ _ hg => hg.imp hR
  uvars := h.uvars.imp fun _ _ hd => hd.imp hR

end

theorem Issue.Rel.imp (hO : ∀ c c', O c c' → O' c c') {e e' : Issue β} (h : Issue.Rel O e e') :
    Issue.Rel O' e e' := by
  induction h with
  | message m => exact .message m
  | foreign h => exact .foreign (hO _ _ h)
  | nil => exact .nil
  | cons _ _ ih ihs => exact .cons ih ihs

/-! ## From right to left -/

section

variable (hR : ∀ t t', R t t' → R' t' t)

include hR

theorem Definition.Rel.symm {d d' : String × Definition β σ} (h : Definition.Rel R d d') :
    Definition.Rel R' d' d :=
  ⟨h.name.symm, h.recursive.symm, rel_imp (fun _ _ => hR _ _) (rel_flip h.body)⟩

theorem Env.Rel.symm {e e' : Env β σ} (h : e.Rel R e') : e'.Rel R' e :=
  ⟨h.bare.symm, (forall₂_flip h.defs).imp fun _ _ hd => Definition.Rel.symm hR hd⟩

theorem UVarDecl.Rel.symm {d d' : UVarDecl β σ} (h : d.Rel R d') : d'.Rel R' d :=
  ⟨h.bare.symm, hR _ _ h.type, rel_imp (fun _ _ => hR _ _) (rel_flip h.solution)⟩

theorem Goal.Rel.symm {g g' : Goal β σ} (h : g.Rel R g') : g'.Rel R' g :=
  ⟨h.bare.symm, h.env.symm hR⟩

theorem ProofState.Rel.symm {s s' : ProofState β σ} (h : s.Rel R s') : s'.Rel R' s where
  bare := h.bare.symm
  mainContext := h.mainContext.symm hR
  goals := (forall₂_flip h.goals).imp fun _ _ hg => Goal.Rel.symm hR hg
  smtGoals := (forall₂_flip h.smtGoals).imp fun _ _ hg => Goal.Rel.symm hR hg
  uvars := (forall₂_flip h.uvars).imp fun _ _ hd => UVarDecl.Rel.symm hR hd

end

theorem Issue.Rel.symm (hO : ∀ c c', O c c' → O' c' c) {e e' : Issue β} (h : Issue.Rel O e e') :
    Issue.Rel O' e' e := by
  induction h with
  | message m => exact .message m
  | foreign h => exact .foreign (hO _ _ h)
  | nil => exact .nil
  | cons _ _ ih ihs => exact .cons ih ihs

/-! ## In two steps -/

section

variable (hT : ∀ t u v, R t u → S u v → T t v)

include hT

theorem Definition.Rel.trans {d e f : String × Definition β σ} (h : Definition.Rel R d e)
    (h' : Definition.Rel S e f) : Definition.Rel T d f :=
  ⟨h.name.trans h'.name, h.recursive.trans h'.recursive, rel_comp hT h.body h'.body⟩

theorem Env.Rel.trans {d e f : Env β σ} (h : d.Rel R e) (h' : e.Rel S f) : d.Rel T f :=
  ⟨h.bare.trans h'.bare, forall₂_comp (fun _ _ _ hd hd' => hd.trans hT hd') h.defs h'.defs⟩

theorem UVarDecl.Rel.trans {d e f : UVarDecl β σ} (h : d.Rel R e) (h' : e.Rel S f) : d.Rel T f :=
  ⟨h.bare.trans h'.bare, hT _ _ _ h.type h'.type, rel_comp hT h.solution h'.solution⟩

theorem Goal.Rel.trans {d e f : Goal β σ} (h : d.Rel R e) (h' : e.Rel S f) : d.Rel T f :=
  ⟨h.bare.trans h'.bare, h.env.trans hT h'.env⟩

theorem ProofState.Rel.trans {d e f : ProofState β σ} (h : d.Rel R e) (h' : e.Rel S f) :
    d.Rel T f where
  bare := h.bare.trans h'.bare
  mainContext := h.mainContext.trans hT h'.mainContext
  goals := forall₂_comp (fun _ _ _ hg hg' => hg.trans hT hg') h.goals h'.goals
  smtGoals := forall₂_comp (fun _ _ _ hg hg' => hg.trans hT hg') h.smtGoals h'.smtGoals
  uvars := forall₂_comp (fun _ _ _ hd hd' => hd.trans hT hd') h.uvars h'.uvars

end

theorem Issue.Rel.trans (hQ : ∀ b c d, O b c → P c d → Q b d) {d e f : Issue β}
    (h : Issue.Rel O d e) (h' : Issue.Rel P e f) : Issue.Rel Q d f := by
  induction h generalizing f with
  | message m => cases h' with | message => exact .message m
  | foreign h => cases h' with | foreign h' => exact .foreign (hQ _ _ _ h h')
  | nil => cases h' with | nil => exact .nil
  | cons _ _ ih ihs => cases h' with | cons h' hs' => exact .cons (ih h') (ihs hs')

/-! ## What is related to itself -/

section

variable (hR : ∀ t, R t t → R' t t)

include hR

theorem Definition.Rel.self {d : String × Definition β σ} (h : Definition.Rel R d d) :
    Definition.Rel R' d d :=
  ⟨rfl, rfl, rel_same hR h.body⟩

theorem Env.Rel.self {e : Env β σ} (h : e.Rel R e) : e.Rel R' e :=
  ⟨rfl, forall₂_self (fun _ hd => Definition.Rel.self hR hd) h.defs⟩

theorem UVarDecl.Rel.self {d : UVarDecl β σ} (h : d.Rel R d) : d.Rel R' d :=
  ⟨rfl, hR _ h.type, rel_same hR h.solution⟩

theorem Goal.Rel.self {g : Goal β σ} (h : g.Rel R g) : g.Rel R' g := ⟨rfl, h.env.self hR⟩

theorem ProofState.Rel.self {s : ProofState β σ} (h : s.Rel R s) : s.Rel R' s where
  bare := rfl
  mainContext := h.mainContext.self hR
  goals := forall₂_self (fun _ hg => Goal.Rel.self hR hg) h.goals
  smtGoals := forall₂_self (fun _ hg => Goal.Rel.self hR hg) h.smtGoals
  uvars := forall₂_self (fun _ hd => UVarDecl.Rel.self hR hd) h.uvars

end

theorem Issue.Rel.self (hO : ∀ c, O c c → O' c c) {e : Issue β} (h : Issue.Rel O e e) :
    Issue.Rel O' e e := by
  -- The induction is on both sides together, which are the same at every place.
  have hself : ∀ {e e' : Issue β}, Issue.Rel O e e' → e = e' → Issue.Rel O' e e := by
    intro e e' h
    induction h with
    | message m => exact fun _ => .message m
    | foreign h =>
        rintro ⟨⟩
        exact .foreign (hO _ h)
    | nil => exact fun _ => .nil
    | cons _ _ ih ihs =>
        rintro ⟨⟩
        exact .cons (ih rfl) (ihs rfl)
  exact hself h rfl

/-! ## What related things have in common -/

theorem StepTable.lookup_rel {R : Step σ → Step σ → Prop}
    (hname : ∀ {s s'}, R s s' → s.name = s'.name) {steps steps' : StepTable σ}
    (h : List.Forall₂ R steps steps') (c : String) :
    Option.Rel R (StepTable.lookup steps c) (StepTable.lookup steps' c) := by
  induction h with
  | nil => exact .none
  | @cons s s' _ _ hs _ ih =>
      simp only [StepTable.lookup, List.find?_cons, hname hs] at ih ⊢
      cases s'.name == c
      · exact ih
      · exact .some hs

theorem Definitions.find?_rel {defs defs' : Definitions β σ}
    (h : List.Forall₂ (Definition.Rel R) defs defs') (name : String) :
    Option.Rel (fun d d' => d.recursive = d'.recursive ∧ Option.Rel R d.body d'.body)
      (defs.find? name) (defs'.find? name) := by
  induction h with
  | nil => exact .none
  | @cons d d' _ _ hd _ ih =>
      obtain ⟨n, d⟩ := d
      obtain ⟨n', d'⟩ := d'
      obtain ⟨hname, hrec, hbody⟩ := hd
      obtain rfl : n = n' := hname
      simp only [Definitions.find?, List.lookup_cons] at ih ⊢
      cases name == n
      · exact ih
      · exact .some ⟨hrec, hbody⟩

theorem Env.Rel.unfoldable {e e' : Env β σ} (h : e.Rel R e') (name : String) :
    Option.Rel R (e.unfoldable name) (e'.unfoldable name) := by
  have hfind := Definitions.find?_rel h.defs name
  simp only [Env.unfoldable, Env.lookup]
  generalize Definitions.find? e.defs name = d? at hfind
  generalize Definitions.find? e'.defs name = d?' at hfind
  cases hfind with
  | none => exact .none
  | @some d d' hd =>
      obtain ⟨b?, rec⟩ := d
      obtain ⟨b?', rec'⟩ := d'
      obtain ⟨hrec, hbody⟩ := hd
      obtain rfl : rec = rec' := hrec
      cases hbody with
      | none => exact .none
      | some hb =>
          cases rec
          · exact .some hb
          · exact .none

theorem Env.Rel.range_eq {e e' : Env β σ} (h : e.Rel R e') : e.range = e'.range := by
  have hbare : e.bare.range = e'.bare.range := by rw [h.bare]
  exact hbare

/-- Whether a state can be shown depends on no term in it. -/
theorem ProofState.Rel.isSome_dump? {s s' : ProofState β σ} (h : s.Rel R s') (text text' : String) :
    (s.dump? text).isSome = (s'.dump? text').isSome := by
  have hbare : s.bare.depth = s'.bare.depth := by rw [h.bare]
  have hdepth : s.depth = s'.depth := hbare
  rw [ProofState.dump?, ProofState.dump?, hdepth]
  split <;> rfl

theorem Issue.Rel.code_eq {e e' : Issue β} (h : Issue.Rel O e e') : e.code = e'.code := by
  cases h <;> rfl

theorem Issue.Rel.pos_eq {e e' : Issue β} (h : Issue.Rel O e e') : e.pos = e'.pos := by
  induction h with
  | message | foreign | nil => rfl
  | cons _ _ ih ihs =>
      simp only [Issue.pos, Issue.firstPos] at ihs ⊢
      rw [ih, ihs]

/-- Related issues are shown alike. -/
theorem Issue.Rel.display_eq {e e' : Issue β} (h : Issue.Rel O e e') : e.display = e'.display := by
  -- Aggregates are taken apart as lists, so the lists are what the induction has to be about, too.
  have hlists : e.display = e'.display ∧ e.issues.length = e'.issues.length ∧
      Issue.displayAll e.issues = Issue.displayAll e'.issues := by
    induction h with
    | message | foreign | nil => exact ⟨rfl, rfl, rfl⟩
    | cons h hs ih ihs =>
        have hpos := (Issue.Rel.cons h hs).pos_eq
        obtain ⟨hdisplay, -, -⟩ := ih
        obtain ⟨-, hlength, hall⟩ := ihs
        simp only [Issue.issues, Issue.pos] at hlength hall hpos
        refine ⟨?_, by simp [Issue.issues, hlength], ?_⟩
        · rw [Issue.display, Issue.display, Issue.displayAll, Issue.displayAll, hpos, hdisplay, hall,
            List.length_cons, List.length_cons, hlength]
        · rw [Issue.issues, Issue.issues, Issue.displayAll, Issue.displayAll, hdisplay, hall]
  exact hlists.1

end TacticEngine
