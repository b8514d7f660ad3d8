/-
# TacticEngine.Proofs.Reduction.Erasure -- wrappers do not change what a term computes.

Where metaprograms run, annotations, ascriptions and reifications are dropped as soon as they get to the head
of what is reduced.  So a term ends as it does without them, apart from wrappers in the result, provided that
steps do not look at wrappers either (`erase_commutes`).

One proviso is needed.  A wrapper may carry a type, or be around a term that is never used, in which
substitution leaves the range of indices; without the wrapper there is nothing to leave it
(`erase_overflow`).

Erasing merges applications, so the two runs are not in step; `toWhnf_apps_iff` is what bridges that.
-/
import TacticEngine.Proofs.Reduction.Merging
import TacticEngine.Proofs.Term.Erased

namespace TacticEngine

variable {β σ : Type}

/-- The environment with all definitions erased. -/
def Env.erased (e : Env β σ) : Env β σ :=
  { e with defs := e.defs.map fun (name, d) => (name, { d with body := d.body.map Term.erase }) }

theorem Env.lookup_erased (e : Env β σ) (name : String) :
    e.erased.lookup name = (e.lookup name).map fun d => { d with body := d.body.map Term.erase } := by
  simp only [Env.lookup, Definitions.find?, Env.erased]
  induction e.defs with
  | nil => rfl
  | cons entry rest ih =>
      obtain ⟨n, d⟩ := entry
      rw [List.map_cons, List.lookup_cons, List.lookup_cons]
      cases name == n
      · exact ih
      · rfl

theorem Env.unfoldable_erased (e : Env β σ) (name : String) :
    e.erased.unfoldable name = (e.unfoldable name).map Term.erase := by
  rw [Env.unfoldable, Env.unfoldable, Env.lookup_erased]
  rcases e.lookup name with _ | ⟨_ | b, _ | _⟩ <;> rfl

theorem Term.Exposed.isLam_erase {t : Term β σ} (ht : t.Exposed) : t.erase.isLam = t.isLam := by
  cases t with
  | app h as => rw [ht.erase_app]; rfl
  | ascribed | annotated | reify => cases ht
  | _ => rfl

theorem Term.Exposed.isRigid_erase {t : Term β σ} (ht : t.Exposed) :
    t.erase.isRigid = t.isRigid := by
  cases t with
  | app h as => rw [ht.erase_app]; rfl
  | ascribed | annotated | reify => cases ht
  | _ => rfl

mutual
/-- Erasing keeps what is alike alike. -/
theorem Term.Alike.erase {L : Likeness β σ} : ∀ {k : Nat} {t u : Term β σ}, L.Alike k t u →
    L.Alike k t.erase u.erase
  | _, _, _, .const hc => .const hc
  | _, _, _, .ctor => .ctor
  | _, _, _, .bvar hi => .bvar hi
  | _, _, _, .free => .free
  | _, _, _, .uvar => .uvar
  | _, _, _, .lit => .lit
  | _, _, _, .app _ hh has => by
      rw [Term.erase, Term.erase]
      exact Term.Alike.apps hh.erase has.erase
  | _, _, _, .lam hn hb => .lam hn hb.erase
  | _, _, _, .case hs hbrs => .case hs.erase hbrs.erase
  | _, _, _, .ascribed ht _ => ht.erase
  | _, _, _, .annotated ht => ht.erase
  | _, _, _, .reify ht => ht.erase
  | _, _, _, .blob hb => .blob hb
  | _, _, _, .native hs => .native hs

theorem Term.AlikeArgs.erase {L : Likeness β σ} : ∀ {k : Nat} {as bs : List (Term β σ)},
    L.AlikeArgs k as bs → L.AlikeArgs k (Term.eraseArgs as) (Term.eraseArgs bs)
  | _, _, _, .nil => .nil
  | _, _, _, .cons ha has => .cons ha.erase has.erase

theorem Term.AlikeBranches.erase {L : Likeness β σ} : ∀ {k : Nat}
    {brs brs' : List (Branch (Term β σ))}, L.AlikeBranches k brs brs' →
      L.AlikeBranches k (Term.eraseBranches brs) (Term.eraseBranches brs')
  | _, _, _, .nil => .nil
  | _, _, _, .cons hb hbrs => .cons hb.erase hbrs.erase
end

open Term (eraseBranches Exposed)

namespace Reduce

/-- The setting with all definitions erased. -/
def Setting.erased (cfg : Setting β σ) : Setting β σ := { cfg with env := cfg.env.erased }

variable {cfg : Setting β σ} {acts acts' : Deeds β σ} {L : Likeness β σ} {t h s u : Term β σ}
  {as : List (Term β σ)}

/-! ## Parts of a step -/

theorem bodyOf?_erased (c : String) : bodyOf? cfg.erased c = (bodyOf? cfg c).map Term.erase := by
  rw [bodyOf?, bodyOf?, apply_ite (Option.map Term.erase)]
  exact if_congr Iff.rfl (Env.unfoldable_erased cfg.env c) rfl

theorem stepOf_erased (ht : t.Exposed) : stepOf cfg.erased t.erase = stepOf cfg t := by
  cases t with
  | app h as => rw [ht.erase_app]; rfl
  | ascribed | annotated | reify => cases ht
  | _ => rfl

/-- What an exposed scrutinee selects is selected after erasing, unless its substitution leaves the range
of indices. -/
theorem select_erase (hs : s.Exposed) (brs : List (Branch (Term β σ))) :
    select s brs = some none ∨
      select s.erase (eraseBranches brs) = (select s brs).map (·.map Term.erase) := by
  have hbeta (b : Term β σ) (ts : List (Term β σ)) : some (b.beta? ts) = some none ∨
      some (b.erase.beta? (ts.map Term.erase)) = some ((b.beta? ts).map Term.erase) := by
    cases hb : b.beta? ts with
    | none => exact .inl rfl
    | some u => exact .inr (congrArg some (Term.beta?_erase hb))
  induction brs with
  | nil => exact .inr rfl
  | cons br brs ih =>
      obtain ⟨p, b⟩ := br
      cases p with
      | wild => exact .inr rfl
      | var => exact hbeta b [s]
      | lit l =>
          simp only [select, eraseBranches, hs.asLit?_erase]
          cases s.asLit? with
          | none => exact .inr rfl
          | some l' =>
              dsimp only
              split
              · exact .inr rfl
              · exact ih
      | ctor c n =>
          simp only [select, eraseBranches, hs.asCtorApp?_erase]
          cases s.asCtorApp? with
          | none => exact .inr rfl
          | some x =>
              simp only [Option.map_some, List.length_map]
              split
              · exact hbeta b x.2
              · exact ih

theorem select_erase_some (hs : s.Exposed) {brs : List (Branch (Term β σ))} {b : Term β σ}
    (hb : select s brs = some (some b)) :
    select s.erase (eraseBranches brs) = some (some b.erase) := by
  have hsel := select_erase hs brs
  rw [hb] at hsel
  rcases hsel with hsel | hsel
  · cases hsel
  · exact hsel

theorem select_erase_none (hs : s.Exposed) {brs : List (Branch (Term β σ))}
    (hb : select s brs = none) : select s.erase (eraseBranches brs) = none := by
  have hsel := select_erase hs brs
  rw [hb] at hsel
  rcases hsel with hsel | hsel
  · cases hsel
  · exact hsel

/-! ## What is asked of the steps -/

/-- Wrappers are dropped in the head, and steps do not see them: what a step does on erased arguments is
what it does on the arguments, erased. -/
structure Erases (cfg : Setting β σ) (acts acts' : Deeds β σ) (L : Likeness β σ) : Prop where
  /-- The flags are those for running metaprograms. -/
  flags : cfg.flags = .tactic
  /-- Terms are canonical. -/
  canonical : L.canonical
  /-- What steps do does not depend on the world. -/
  sure : Sure cfg acts
  /-- Nor does it after erasing. -/
  sure_erased : Sure cfg.erased acts'
  /-- Reduction brings in nothing else. -/
  stays : Stays cfg acts acts L
  /-- A step always does something. -/
  total : ∀ s as, L.step s s → L.AlikeArgs 0 as as → ∃ x, acts s as x
  /-- A step does the same on erased arguments. -/
  deed : ∀ s as x, L.step s s → L.AlikeArgs 0 as as → acts s as x →
    acts' s (as.map Term.erase) (x.map (·.map Term.erase))

theorem Erases.deed_iff (hE : Erases cfg acts acts' L) {s : Step σ} (hs : L.step s s)
    (has : L.AlikeArgs 0 as as) {x' : Except (Halt β) (Option (Term β σ))} :
    acts' s (as.map Term.erase) x' ↔ ∃ x, acts s as x ∧ x' = x.map (·.map Term.erase) := by
  constructor
  · intro hx'
    obtain ⟨x, hx⟩ := hE.total s as hs has
    exact ⟨x, hx, hE.sure_erased.unique hx' (hE.deed s as x hs has hx)⟩
  · rintro ⟨x, hx, rfl⟩
    exact hE.deed s as x hs has hx

theorem exposed_of_isRigid (ht : t.isRigid = true) : t.Exposed := by
  cases t with
  | app => cases ht
  | ascribed | annotated | reify => cases ht
  | _ => rfl

theorem HeadNormal.exposed (hE : Erases cfg acts acts' L) (ht : HeadNormal cfg acts t) :
    t.Exposed := by
  have hascribed : cfg.flags.unascribe = true := congrArg Flags.unascribe hE.flags
  have hreify : cfg.flags.reify = true := congrArg Flags.reify hE.flags
  have hwrap : ∀ {u : Term β σ}, HeadNormal cfg acts u → u.isWrapper = false := by
    intro u hu
    obtain ⟨hann, hasc, hre⟩ := hu.not_wrapped hascribed hreify
    cases u with
    | annotated u n => exact absurd rfl (hann u n)
    | ascribed u s => exact absurd rfl (hasc u s)
    | reify u => exact absurd rfl (hre u)
    | _ => rfl
  cases ht with
  | app happ hne hh _ _ _ => exact ⟨happ, hwrap hh, hne⟩
  | rigid hr => exact exposed_of_isRigid hr
  | ascribed hf => rw [hascribed] at hf; cases hf
  | reify hf => rw [hreify] at hf; cases hf
  | const | native | case => exact rfl

/-! ## A run without wrappers does what the run with them does -/

mutual
theorem ToWhnf.erase (hE : Erases cfg acts acts' L) : ∀ {t : Term β σ}
    {r : Except (Halt β) (Term β σ)}, ToWhnf cfg acts t r → L.Alike 0 t t → r ≠ .error .overflow →
      ToWhnf cfg.erased acts' t.erase (r.map Term.erase)
  | _, _, .annotated h, .annotated ht, hne => h.erase hE ht hne
  | _, _, .ascribed _ h, .ascribed ht _, hne => h.erase hE ht hne
  | _, _, .ascribed_kept hf, _, _ => by
      rw [hE.flags] at hf
      cases hf
  | _, _, .reify _ h, .reify ht, hne => h.erase hE ht hne
  | _, _, .reify_kept hf, _, _ => by
      rw [hE.flags] at hf
      cases hf
  | _, _, .unfold hb h, .const hc, hne =>
      .unfold (by rw [bodyOf?_erased, hb]; rfl) (h.erase hE (hE.stays.bodyOf? hc hb) hne)
  | _, _, .const hb h, ht, hne =>
      .const (by rw [bodyOf?_erased, hb]; rfl) (h.erase hE ht .nil rfl hne)
  | _, _, .native h, ht, hne => .native (h.erase hE ht .nil rfl hne)
  | _, _, .rigid hr, _, _ => .rigid (by rwa [(exposed_of_isRigid hr).isRigid_erase])
  | _, _, .app hh ha, .app hc ht has, hne => by
      have hhead := hh.erase hE ht nofun
      have hrest := ha.erase hE ((hh.stays hE.stays ht).2 _ rfl) has
        ((hh.headNormal hE.sure _ rfl).exposed hE) hne
      -- The head may be an application once its wrappers are gone, and then takes these arguments too.
      rw [Term.erase_app]
      exact hhead.apps hE.sure_erased (by simpa using (hc hE.canonical).2) (.ok hrest)
  | _, _, .app_error hh, .app hc ht has, hne => by
      have hhead := hh.erase hE ht (fun h => hne (congrArg _ (Except.error.inj h)))
      rw [Term.erase_app]
      exact hhead.apps hE.sure_erased (by simpa using (hc hE.canonical).2) .error
  | _, _, .case hs hb h, .case ht hbrs, hne => by
      have hsel := select_erase_some ((hs.headNormal hE.sure _ rfl).exposed hE) hb
      have hbody := alike_of_select ((hs.stays hE.stays ht).2 _ rfl) hbrs hb
      exact .case (hs.erase hE ht nofun) hsel (h.erase hE hbody hne)
  | _, _, .case_overflow _ _, _, hne => absurd rfl hne
  | _, _, .case_stuck hs hb, .case ht _, _ =>
      .case_stuck (hs.erase hE ht nofun)
        (select_erase_none ((hs.headNormal hE.sure _ rfl).exposed hE) hb)
  | _, _, .case_error hs, .case ht _, hne =>
      .case_error (hs.erase hE ht fun h => hne (congrArg _ (Except.error.inj h)))

theorem ToApp.erase (hE : Erases cfg acts acts' L) : ∀ {h : Term β σ} {as : List (Term β σ)}
    {r : Except (Halt β) (Term β σ)}, ToApp cfg acts h as r → L.Alike 0 h h →
      L.AlikeArgs 0 as as → h.Exposed → r ≠ .error .overflow →
      ToApp cfg.erased acts' h.erase (as.map Term.erase) (r.map Term.erase)
  | .app g bs, as, _, .merge h, ht, has, hx, hne => by
      have hall : (Term.app g (bs ++ as)).Exposed :=
        ⟨hx.1, hx.2.1, List.append_ne_nil_of_left_ne_nil hx.2.2 as⟩
      have halike := ht.apps has
      rw [Term.app_apps] at halike
      have ih := h.erase hE halike hne
      rw [hall.erase_app, List.map_append] at ih
      rw [hx.erase_app]
      exact .merge ih
  | _, _, _, .beta hn hb h, ht, has, _, hne => by
      have ih := h.erase hE ((alike_of_beta? ht has hn hb).apps (has.drop _)) hne
      rw [Term.erase_apps, List.map_drop] at ih
      have hb' := Term.beta?_erase hb
      rw [List.map_take] at hb'
      exact .beta (by rwa [List.length_map]) hb' ih
  | _, _, _, .beta_overflow _ _, _, _, _, hne => absurd rfl hne
  | _, _, _, .short hn, _, _, _, _ => by
      show ToApp _ _ _ _ (.ok (Term.erase _))
      rw [Term.erase_apps]
      exact .short (by rwa [List.length_map])
  | _, _, _, .inert happ hlam hs, _, _, hx, _ => by
      show ToApp _ _ _ _ (.ok (Term.erase _))
      rw [Term.erase_apps]
      exact .inert (hx.isApp_erase.trans happ) (hx.isLam_erase.trans hlam) ((stepOf_erased hx).trans hs)
  | _, _, _, .waiting hs hlen, _, _, hx, _ => by
      show ToApp _ _ _ _ (.ok (Term.erase _))
      rw [Term.erase_apps]
      exact .waiting ((stepOf_erased hx).trans hs) (by rwa [List.length_map])
  | _, as, _, .fired (s := s) (u := u) hs hlen hnow hact h, ht, has, hx, hne => by
      have hstep := hE.stays.stepOf ht hs
      have halike := (hnow.stays hE.stays (has.take _)).2 _ rfl
      have ihnow := hnow.erase hE (has.take _) nofun
      have ih := h.erase hE ((hE.stays.result _ _ _ hstep halike hact).apps (has.drop _)) hne
      rw [List.map_take] at ihnow
      rw [Term.erase_apps, List.map_drop] at ih
      exact .fired ((stepOf_erased hx).trans hs) (by rwa [List.length_map]) ihnow
        (hE.deed _ _ _ hstep halike hact) ih
  | _, as, _, .declined (s := s) hs hlen hnow hact, ht, has, hx, hne => by
      have halike := (hnow.stays hE.stays (has.take _)).2 _ rfl
      have ihnow := hnow.erase hE (has.take _) nofun
      rw [List.map_take] at ihnow
      show ToApp _ _ _ _ (.ok (Term.erase _))
      rw [Term.erase_apps, List.map_append, List.map_drop]
      exact .declined ((stepOf_erased hx).trans hs) (by rwa [List.length_map]) ihnow
        (hE.deed _ _ _ (hE.stays.stepOf ht hs) halike hact)
  | _, _, _, .failed hs hlen hnow hact, ht, has, hx, hne => by
      have halike := (hnow.stays hE.stays (has.take _)).2 _ rfl
      have ihnow := hnow.erase hE (has.take _) nofun
      rw [List.map_take] at ihnow
      exact .failed ((stepOf_erased hx).trans hs) (by rwa [List.length_map]) ihnow
        (hE.deed _ _ _ (hE.stays.stepOf ht hs) halike hact)
  | _, _, _, .args_error hs hlen hnow, _, has, hx, hne => by
      have ihnow := hnow.erase hE (has.take _) fun h => hne (congrArg _ (Except.error.inj h))
      rw [List.map_take] at ihnow
      exact .args_error ((stepOf_erased hx).trans hs) (by rwa [List.length_map]) ihnow

theorem ToNorm.erase (hE : Erases cfg acts acts' L) : ∀ {t : Term β σ}
    {r : Except (Halt β) (Term β σ)}, ToNorm cfg acts t r → L.Alike 0 t t → r ≠ .error .overflow →
      ToNorm cfg.erased acts' t.erase (r.map Term.erase)
  | _, _, .hnf hf _, _, _ => by
      rw [hE.flags] at hf
      cases hf
  | _, _, .args hf h has, ht, _ => by
      have hx := (h.headNormal hE.sure _ rfl).exposed hE
      have ih : ToWhnf cfg.erased acts' _ (.ok (Term.erase _)) := h.erase hE ht nofun
      rw [hx.erase_app] at ih
      cases (h.stays hE.stays ht).2 _ rfl with
      | app _ _ halike =>
          have ihs := has.erase hE halike nofun
          show ToNorm _ _ _ (.ok (Term.erase _))
          rw [Term.erase_apps]
          exact .args hf ih ihs
  | _, _, .args_error hf h has, ht, hne => by
      have hx := (h.headNormal hE.sure _ rfl).exposed hE
      have ih : ToWhnf cfg.erased acts' _ (.ok (Term.erase _)) := h.erase hE ht nofun
      rw [hx.erase_app] at ih
      cases (h.stays hE.stays ht).2 _ rfl with
      | app _ _ halike =>
          have ihs := has.erase hE halike fun h => hne (congrArg _ (Except.error.inj h))
          exact .args_error hf ih ihs
  | _, _, .head hf h hu, ht, _ =>
      .head hf (h.erase hE ht nofun)
        (((h.headNormal hE.sure _ rfl).exposed hE).isApp_erase.trans hu)
  | _, _, .error h, ht, hne =>
      .error (h.erase hE ht fun h => hne (congrArg _ (Except.error.inj h)))

theorem ToNorms.erase (hE : Erases cfg acts acts' L) : ∀ {ts : List (Term β σ)}
    {r : Except (Halt β) (List (Term β σ))}, ToNorms cfg acts ts r → L.AlikeArgs 0 ts ts →
      r ≠ .error .overflow → ToNorms cfg.erased acts' (ts.map Term.erase) (r.map (·.map Term.erase))
  | _, _, .nil, _, _ => .nil
  | _, _, .cons h hs, .cons ht hts, _ => .cons (h.erase hE ht nofun) (hs.erase hE hts nofun)
  | _, _, .head_error h, .cons ht _, hne =>
      .head_error (h.erase hE ht fun h => hne (congrArg _ (Except.error.inj h)))
  | _, _, .tail_error h hs, .cons ht hts, hne =>
      .tail_error (h.erase hE ht nofun)
        (hs.erase hE hts fun h => hne (congrArg _ (Except.error.inj h)))
end

/-! ## Peeling a term -/

/-- The term without the wrappers that are in the way of its head, and flat. -/
def peel : Term β σ → Term β σ
  | .annotated t _ => peel t
  | .ascribed t _ => peel t
  | .reify t => peel t
  | .app h as => (peel h).apps as
  | t => t

theorem erase_peel (t : Term β σ) : (peel t).erase = t.erase := by
  fun_induction peel t with
  | case1 t _ ih => exact ih
  | case2 t _ ih => exact ih
  | case3 t ih => exact ih
  | case4 h as ih => rw [Term.erase_apps, ih, Term.erase_app]
  | case5 => rfl

theorem alike_peel (ht : L.Alike 0 t t) : L.Alike 0 (peel t) (peel t) := by
  fun_induction peel t with
  | case1 t _ ih => cases ht with | annotated ht => exact ih ht
  | case2 t _ ih => cases ht with | ascribed ht _ => exact ih ht
  | case3 t ih => cases ht with | reify ht => exact ih ht
  | case4 h as ih => cases ht with | app _ hh has => exact (ih hh).apps has
  | case5 => exact ht

theorem exposed_peel (t : Term β σ) : (peel t).Exposed := by
  fun_induction peel t with
  | case1 t _ ih => exact ih
  | case2 t _ ih => exact ih
  | case3 t ih => exact ih
  | case4 h as ih => exact ih.apps as
  | case5 t hann hasc hre happ =>
      cases t with
      | app h as => exact absurd rfl (happ h as)
      | ascribed t s => exact absurd rfl (hasc t s)
      | annotated t n => exact absurd rfl (hann t n)
      | reify t => exact absurd rfl (hre t)
      | _ => rfl

/-- A term is reduced like the peeled one. -/
theorem toWhnf_peel_iff (hE : Erases cfg acts acts' L) (ht : L.Alike 0 t t)
    {r : Except (Halt β) (Term β σ)} : ToWhnf cfg acts (peel t) r ↔ ToWhnf cfg acts t r := by
  have hascribed : cfg.flags.unascribe = true := congrArg Flags.unascribe hE.flags
  have hreify : cfg.flags.reify = true := congrArg Flags.reify hE.flags
  fun_induction peel t generalizing r with
  | case1 t n ih =>
      cases ht with
      | annotated ht =>
          refine (ih ht).trans ⟨.annotated, fun h => ?_⟩
          cases h with
          | annotated h => exact h
          | rigid hr => cases hr
  | case2 t s ih =>
      cases ht with
      | ascribed ht _ =>
          refine (ih ht).trans ⟨.ascribed hascribed, fun h => ?_⟩
          cases h with
          | ascribed _ h => exact h
          | ascribed_kept hf => rw [hascribed] at hf; cases hf
          | rigid hr => cases hr
  | case3 t ih =>
      cases ht with
      | reify ht =>
          refine (ih ht).trans ⟨.reify hreify, fun h => ?_⟩
          cases h with
          | reify _ h => exact h
          | reify_kept hf => rw [hreify] at hf; cases hf
          | rigid hr => cases hr
  | case4 h as ih =>
      cases ht with
      | app hc hh _ =>
          rw [toWhnf_apps_iff hE.sure (hc hE.canonical).2, toWhnf_app_iff]
          exact exists_congr fun z => and_congr_left fun _ => ih hh
  | case5 => exact Iff.rfl

/-! ## A run with wrappers does what the run without them does -/

/-- A run ends as the other one does after erasing, or leaves the range of indices. -/
def ErasesTo {α : Type} (f : α → α) (r r' : Except (Halt β) α) : Prop :=
  r = .error .overflow ∨ r' = r.map f

theorem ErasesTo.of_ok {α : Type} {f : α → α} {r : Except (Halt β) α} {a : α}
    (h : ErasesTo f r (.ok a)) : r = .error .overflow ∨ ∃ b, r = .ok b ∧ a = f b := by
  rcases h with h | h
  · exact .inl h
  · cases r with
    | ok b => exact .inr ⟨b, rfl, Except.ok.inj h⟩
    | error e => cases h

theorem ErasesTo.of_error {α : Type} {f : α → α} {r : Except (Halt β) α} {e : Halt β}
    (h : ErasesTo f r (.error e)) : ∃ e', r = .error e' ∧ (e' = .overflow ∨ e' = e) := by
  rcases h with rfl | h
  · exact ⟨_, rfl, .inl rfl⟩
  · cases r with
    | ok b => cases h
    | error e' => exact ⟨e', rfl, .inr (Except.error.inj h).symm⟩

theorem erasesTo_error {α : Type} {f : α → α} {e e' : Halt β} (h : e' = .overflow ∨ e' = e) :
    ErasesTo f (.error e' : Except (Halt β) α) (.error e) := by
  rcases h with rfl | rfl
  · exact .inl rfl
  · exact .inr rfl

theorem erasesTo_overflow {α : Type} {f : α → α} {r' : Except (Halt β) α} :
    ErasesTo f (.error .overflow) r' := .inl rfl

theorem case_of_erase {s' : Term β σ} {brs' : List (Branch (Term β σ))} (hx : t.Exposed)
    (ht : t.erase = .case s' brs') (halike : L.Alike 0 t t) :
    ∃ s brs, t = .case s brs ∧ s.erase = s' ∧ eraseBranches brs = brs' ∧ L.Alike 0 s s ∧
      L.AlikeBranches 0 brs brs := by
  have hshape := hx.shape
  rw [ht] at hshape
  obtain ⟨s, brs, rfl, hs, hbrs⟩ := hshape
  cases halike with
  | case hs' hbrs' => exact ⟨s, brs, rfl, hs, hbrs, hs', hbrs'⟩

theorem lam_of_erase {n : Nat} {b' : Term β σ} (hx : t.Exposed) (ht : t.erase = .lam n b') :
    ∃ b, t = .lam n b ∧ b.erase = b' := by
  have hshape := hx.shape
  rwa [ht] at hshape

theorem app_of_erase {h' : Term β σ} {as' : List (Term β σ)} (hx : t.Exposed)
    (ht : t.erase = .app h' as') (halike : L.Alike 0 t t) :
    ∃ h as, t = .app h as ∧ h.Exposed ∧ h.erase = h' ∧ as.map Term.erase = as' ∧ L.Alike 0 h h ∧
      L.AlikeArgs 0 as as := by
  have hshape := hx.shape
  rw [ht] at hshape
  obtain ⟨h, as, rfl, hh, has⟩ := hshape
  cases halike with
  | app _ hh' has' =>
      exact ⟨h, as, rfl, Term.exposed_of_not_isApp hx.1 hx.2.1, hh, has, hh', has'⟩

/-- For what a term is reduced to, it is enough to look at exposed terms. -/
theorem exists_of_exposed (hE : Erases cfg acts acts' L) (ht : L.Alike 0 t t)
    {P : Except (Halt β) (Term β σ) → Prop}
    (h : ∀ u, u.Exposed → u.erase = t.erase → L.Alike 0 u u → ∃ r, ToWhnf cfg acts u r ∧ P r) :
    ∃ r, ToWhnf cfg acts t r ∧ P r := by
  obtain ⟨r, hr, hP⟩ := h (peel t) (exposed_peel t) (erase_peel t) (alike_peel ht)
  exact ⟨r, (toWhnf_peel_iff hE ht).mp hr, hP⟩

/-- A scrutinee that is reduced like the erased one selects what that selects, or the range of indices is
left. -/
theorem selected_of_erase (hE : Erases cfg acts acts' L) {s' : Term β σ}
    (hs : ∃ z, ToWhnf cfg acts s z ∧ ErasesTo Term.erase z (.ok s')) (brs : List (Branch (Term β σ))) :
    ToWhnf cfg acts (.case s brs) (.error .overflow) ∨
      ∃ s₁, ToWhnf cfg acts s (.ok s₁) ∧ s' = s₁.erase ∧
        select s' (eraseBranches brs) = (select s₁ brs).map (·.map Term.erase) := by
  obtain ⟨z, hz, hm⟩ := hs
  rcases hm.of_ok with rfl | ⟨s₁, rfl, rfl⟩
  · exact .inl (.case_error hz)
  · rcases select_erase ((hz.headNormal hE.sure _ rfl).exposed hE) brs with hsel | hsel
    · exact .inl (.case_overflow hz hsel)
    · exact .inr ⟨s₁, hz, rfl, hsel⟩

/-- A lambda whose body is given arguments takes their erasures when it is erased, or the range of indices is
left. -/
theorem beta?_of_erase {n : Nat} (b : Term β σ) (as : List (Term β σ)) :
    b.beta? (as.take n) = none ∨ ∃ c, b.beta? (as.take n) = some c ∧
      b.erase.beta? ((as.map Term.erase).take n) = some c.erase := by
  cases hc : b.beta? (as.take n) with
  | none => exact .inl rfl
  | some c =>
      have hc' := Term.beta?_erase hc
      rw [List.map_take] at hc'
      exact .inr ⟨c, rfl, hc'⟩

/-- A step whose arguments are normalized like the erased ones does what it does on those, or the range of
indices is left. -/
theorem deed_of_erase (hE : Erases cfg acts acts' L) {s : Step σ} (hs : stepOf cfg h = some s)
    (hlen : s.arity ≤ as.length) (hh : L.Alike 0 h h) (has : L.AlikeArgs 0 as as)
    {now' : List (Term β σ)} {x' : Except (Halt β) (Option (Term β σ))}
    (hnow : ∃ z, ToNorms cfg acts (as.take s.arity) z ∧ ErasesTo (·.map Term.erase) z (.ok now'))
    (hx' : acts' s now' x') :
    ToApp cfg acts h as (.error .overflow) ∨
      ∃ now x, ToNorms cfg acts (as.take s.arity) (.ok now) ∧ now' = now.map Term.erase ∧
        L.AlikeArgs 0 now now ∧ acts s now x ∧ x' = x.map (·.map Term.erase) := by
  obtain ⟨z, hz, hm⟩ := hnow
  rcases hm.of_ok with rfl | ⟨now, rfl, rfl⟩
  · exact .inl (.args_error hs hlen hz)
  · have hnowlike := (hz.stays hE.stays (has.take _)).2 _ rfl
    obtain ⟨x, hx, hxe⟩ := (hE.deed_iff (hE.stays.stepOf hh hs) hnowlike).mp hx'
    exact .inr ⟨now, x, hz, rfl, hnowlike, hx, hxe⟩

-- By induction on the run without wrappers, for all exposed terms that erase to the one it starts from: an
-- exposed term has the shape of the erased one, so the same rule applies.  What comes next need not be exposed,
-- and is peeled.
mutual
theorem ToWhnf.of_erase (hE : Erases cfg acts acts' L) : ∀ {x : Term β σ}
    {r' : Except (Halt β) (Term β σ)}, ToWhnf cfg.erased acts' x r' → ∀ t, t.Exposed → t.erase = x →
      L.Alike 0 t t → ∃ r, ToWhnf cfg acts t r ∧ ErasesTo Term.erase r r'
  | _, _, .annotated _, t, hx, ht, _ | _, _, .ascribed _ _, t, hx, ht, _
  | _, _, .ascribed_kept _, t, hx, ht, _ | _, _, .reify _ _, t, hx, ht, _
  | _, _, .reify_kept _, t, hx, ht, _ => by
      have hwrap := hx.isWrapper_erase
      rw [ht] at hwrap
      cases hwrap
  | _, _, .unfold hb h, t, hx, ht, halike => by
      have hshape := hx.shape
      rw [ht] at hshape
      subst hshape
      rw [bodyOf?_erased] at hb
      obtain ⟨b, hb, hbe⟩ := Option.map_eq_some_iff.mp hb
      cases halike with
      | const hc =>
          have hbody := hE.stays.bodyOf? hc hb
          obtain ⟨r, hr, hm⟩ := exists_of_exposed hE hbody fun u hu hue =>
            h.of_erase hE u hu (hue.trans hbe)
          exact ⟨r, .unfold hb hr, hm⟩
  | _, _, .const hb h, t, hx, ht, halike => by
      have hshape := hx.shape
      rw [ht] at hshape
      subst hshape
      rw [bodyOf?_erased, Option.map_eq_none_iff] at hb
      obtain ⟨r, hr, hm⟩ := h.of_erase hE _ [] hx rfl rfl halike .nil
      exact ⟨r, .const hb hr, hm⟩
  | _, _, .native h, t, hx, ht, halike => by
      have hshape := hx.shape
      rw [ht] at hshape
      subst hshape
      obtain ⟨r, hr, hm⟩ := h.of_erase hE _ [] hx rfl rfl halike .nil
      exact ⟨r, .native hr, hm⟩
  | _, _, .rigid hr, t, hx, ht, _ => by
      subst ht
      exact ⟨.ok t, .rigid (hx.isRigid_erase ▸ hr), .inr rfl⟩
  | _, _, .app hh ha, t, hx, ht, halike => by
      obtain ⟨h, as, rfl, hhx, hhe, hase, halike, has⟩ := app_of_erase hx ht halike
      obtain ⟨z, hz, hm⟩ := hh.of_erase hE h hhx hhe halike
      rcases hm.of_ok with rfl | ⟨h₁, rfl, hhe₁⟩
      · exact ⟨_, .app_error hz, erasesTo_overflow⟩
      · obtain ⟨r, hr, hm⟩ := ha.of_erase hE h₁ as ((hz.headNormal hE.sure _ rfl).exposed hE)
          hhe₁.symm hase ((hz.stays hE.stays halike).2 _ rfl) has
        exact ⟨r, .app hz hr, hm⟩
  | _, _, .app_error hh, t, hx, ht, halike => by
      obtain ⟨h, as, rfl, hhx, hhe, -, halike, -⟩ := app_of_erase hx ht halike
      obtain ⟨z, hz, hm⟩ := hh.of_erase hE h hhx hhe halike
      obtain ⟨e, rfl, he⟩ := hm.of_error
      exact ⟨_, .app_error hz, erasesTo_error he⟩
  | _, _, .case hs hb h, t, hx, ht, halike => by
      obtain ⟨s, brs, rfl, hse, rfl, halike, hbrs⟩ := case_of_erase hx ht halike
      have ihs := exists_of_exposed hE halike fun u hu hue => hs.of_erase hE u hu (hue.trans hse)
      rcases selected_of_erase hE ihs brs with hover | ⟨s₁, hs₁, rfl, hsel⟩
      · exact ⟨_, hover, erasesTo_overflow⟩
      · obtain ⟨b?, hb?, hbe?⟩ := Option.map_eq_some_iff.mp (hsel.symm.trans hb)
        obtain ⟨b, rfl, hbe⟩ := Option.map_eq_some_iff.mp hbe?
        have hbody := alike_of_select ((hs₁.stays hE.stays halike).2 _ rfl) hbrs hb?
        obtain ⟨r, hr, hm⟩ := exists_of_exposed hE hbody fun u hu hue =>
          h.of_erase hE u hu (hue.trans hbe)
        exact ⟨r, .case hs₁ hb? hr, hm⟩
  | _, _, .case_overflow hs hb, t, hx, ht, halike => by
      obtain ⟨s, brs, rfl, hse, rfl, halike, -⟩ := case_of_erase hx ht halike
      have ihs := exists_of_exposed hE halike fun u hu hue => hs.of_erase hE u hu (hue.trans hse)
      rcases selected_of_erase hE ihs brs with hover | ⟨s₁, hs₁, rfl, hsel⟩
      · exact ⟨_, hover, erasesTo_overflow⟩
      · obtain ⟨b?, hb?, hbe?⟩ := Option.map_eq_some_iff.mp (hsel.symm.trans hb)
        rw [Option.map_eq_none_iff] at hbe?
        subst hbe?
        exact ⟨_, .case_overflow hs₁ hb?, erasesTo_overflow⟩
  | _, _, .case_stuck hs hb, t, hx, ht, halike => by
      obtain ⟨s, brs, rfl, hse, rfl, halike, -⟩ := case_of_erase hx ht halike
      have ihs := exists_of_exposed hE halike fun u hu hue => hs.of_erase hE u hu (hue.trans hse)
      rcases selected_of_erase hE ihs brs with hover | ⟨s₁, hs₁, rfl, hsel⟩
      · exact ⟨_, hover, erasesTo_overflow⟩
      · exact ⟨_, .case_stuck hs₁ (Option.map_eq_none_iff.mp (hsel.symm.trans hb)), .inr rfl⟩
  | _, _, .case_error hs, t, hx, ht, halike => by
      obtain ⟨s, brs, rfl, hse, rfl, halike, -⟩ := case_of_erase hx ht halike
      obtain ⟨z, hz, hm⟩ := exists_of_exposed hE halike fun u hu hue =>
        hs.of_erase hE u hu (hue.trans hse)
      obtain ⟨e, rfl, he⟩ := hm.of_error
      exact ⟨_, .case_error hz, erasesTo_error he⟩

theorem ToApp.of_erase (hE : Erases cfg acts acts' L) : ∀ {x : Term β σ} {xs : List (Term β σ)}
    {r' : Except (Halt β) (Term β σ)}, ToApp cfg.erased acts' x xs r' → ∀ h as, h.Exposed →
      h.erase = x → as.map Term.erase = xs → L.Alike 0 h h → L.AlikeArgs 0 as as →
      ∃ r, ToApp cfg acts h as r ∧ ErasesTo Term.erase r r'
  | _, _, _, .merge hr, h, as, hx, hh, has, halike, haslike => by
      have ih := hr.of_erase hE
      obtain ⟨g, bs, rfl, -, rfl, rfl, -, -⟩ := app_of_erase hx hh halike
      have hall := hx.apps as
      have hallike := halike.apps haslike
      rw [Term.app_apps] at hall hallike
      obtain ⟨r, hr, hm⟩ := ih (.app g (bs ++ as)) hall
        (by rw [hall.erase_app, List.map_append, has]) hallike
      exact ⟨r, .merge hr, hm⟩
  | _, _, _, .beta (n := n) hn hb hr, h, as, hx, hh, has, halike, haslike => by
      have ih := hr.of_erase hE
      obtain ⟨b, rfl, rfl⟩ := lam_of_erase hx hh
      subst has
      rw [List.length_map] at hn
      obtain hc | ⟨c, hc, hc'⟩ := beta?_of_erase (n := n) b as
      · exact ⟨_, .beta_overflow hn hc, erasesTo_overflow⟩
      · obtain rfl := Option.some.inj (hb.symm.trans hc')
        have hclike := (alike_of_beta? halike haslike hn hc).apps (haslike.drop n)
        obtain ⟨r, hr, hm⟩ := exists_of_exposed hE hclike fun u hu hue =>
          ih u hu (by rw [hue, Term.erase_apps, List.map_drop])
        exact ⟨r, .beta hn hc hr, hm⟩
  | _, _, _, .beta_overflow (n := n) hn hb, h, as, hx, hh, has, halike, haslike => by
      obtain ⟨b, rfl, rfl⟩ := lam_of_erase hx hh
      subst has
      rw [List.length_map] at hn
      obtain hc | ⟨c, -, hc'⟩ := beta?_of_erase (n := n) b as
      · exact ⟨_, .beta_overflow hn hc, erasesTo_overflow⟩
      · cases hb.symm.trans hc'
  | _, _, _, .short hn, h, as, hx, hh, has, halike, haslike => by
      obtain ⟨b, rfl, rfl⟩ := lam_of_erase hx hh
      subst has
      rw [List.length_map] at hn
      exact ⟨_, .short hn, .inr (congrArg Except.ok (Term.erase_apps (.lam _ b) as).symm)⟩
  | _, _, _, .inert happ hlam hs, h, as, hx, hh, has, halike, haslike => by
      subst hh has
      exact ⟨_, .inert (hx.isApp_erase ▸ happ) (hx.isLam_erase ▸ hlam) (stepOf_erased hx ▸ hs),
        .inr (congrArg Except.ok (Term.erase_apps h as).symm)⟩
  | _, _, _, .waiting hs hlen, h, as, hx, hh, has, halike, haslike => by
      subst hh has
      rw [List.length_map] at hlen
      exact ⟨_, .waiting (stepOf_erased hx ▸ hs) hlen,
        .inr (congrArg Except.ok (Term.erase_apps h as).symm)⟩
  | _, _, _, .fired (s := s) hs hlen hnow hact hr, h, as, hx, hh, has, halike, haslike => by
      have ihnow := hnow.of_erase hE (as.take s.arity) (by rw [List.map_take, has]) (haslike.take _)
      have ih := hr.of_erase hE
      subst hh has
      rw [List.length_map] at hlen
      rw [stepOf_erased hx] at hs
      obtain hover | ⟨now, x, hnow', rfl, hnowlike, hx', hxe⟩ :=
        deed_of_erase hE hs hlen halike haslike ihnow hact
      · exact ⟨_, hover, erasesTo_overflow⟩
      · rcases x with e | _ | u <;> cases hxe
        have hresult := hE.stays.result _ _ _ (hE.stays.stepOf halike hs) hnowlike hx'
        obtain ⟨r, hr, hm⟩ := exists_of_exposed hE (hresult.apps (haslike.drop s.arity)) fun u hu hue =>
          ih u hu (by rw [hue, Term.erase_apps, List.map_drop])
        exact ⟨r, .fired hs hlen hnow' hx' hr, hm⟩
  | _, _, _, .declined (s := s) hs hlen hnow hact, h, as, hx, hh, has, halike, haslike => by
      have ihnow := hnow.of_erase hE (as.take s.arity) (by rw [List.map_take, has]) (haslike.take _)
      subst hh has
      rw [List.length_map] at hlen
      rw [stepOf_erased hx] at hs
      obtain hover | ⟨now, x, hnow', rfl, -, hx', hxe⟩ :=
        deed_of_erase hE hs hlen halike haslike ihnow hact
      · exact ⟨_, hover, erasesTo_overflow⟩
      · rcases x with e | _ | u <;> cases hxe
        refine ⟨_, .declined hs hlen hnow' hx', .inr (congrArg Except.ok ?_)⟩
        rw [Term.erase_apps, List.map_append, List.map_drop]
  | _, _, _, .failed (s := s) hs hlen hnow hact, h, as, hx, hh, has, halike, haslike => by
      have ihnow := hnow.of_erase hE (as.take s.arity) (by rw [List.map_take, has]) (haslike.take _)
      subst hh has
      rw [List.length_map] at hlen
      rw [stepOf_erased hx] at hs
      obtain hover | ⟨now, x, hnow', rfl, -, hx', hxe⟩ :=
        deed_of_erase hE hs hlen halike haslike ihnow hact
      · exact ⟨_, hover, erasesTo_overflow⟩
      · rcases x with e | _ | u <;> cases hxe
        exact ⟨_, .failed hs hlen hnow' hx', .inr rfl⟩
  | _, _, _, .args_error (s := s) hs hlen hnow, h, as, hx, hh, has, halike, haslike => by
      have ihnow := hnow.of_erase hE (as.take s.arity) (by rw [List.map_take, has]) (haslike.take _)
      subst hh has
      rw [List.length_map] at hlen
      rw [stepOf_erased hx] at hs
      obtain ⟨z, hz, hm⟩ := ihnow
      obtain ⟨e, rfl, he⟩ := hm.of_error
      exact ⟨_, .args_error hs hlen hz, erasesTo_error he⟩

theorem ToNorm.of_erase (hE : Erases cfg acts acts' L) : ∀ {x : Term β σ}
    {r' : Except (Halt β) (Term β σ)}, ToNorm cfg.erased acts' x r' → ∀ t, t.erase = x →
      L.Alike 0 t t → ∃ r, ToNorm cfg acts t r ∧ ErasesTo Term.erase r r'
  | _, _, .hnf hf _, _, _, _ => by
      have hflags : cfg.erased.flags = .tactic := hE.flags
      rw [hflags] at hf
      cases hf
  | _, _, .args hf hw hs, t, ht, halike => by
      have ihs := hs.of_erase hE
      obtain ⟨z, hz, hm⟩ := exists_of_exposed hE halike fun u hu hue =>
        hw.of_erase hE u hu (hue.trans ht)
      rcases hm.of_ok with rfl | ⟨u, rfl, hu⟩
      · exact ⟨_, .error hz, erasesTo_overflow⟩
      · obtain ⟨h, as, rfl, -, rfl, rfl, -, haslike⟩ := app_of_erase
          ((hz.headNormal hE.sure _ rfl).exposed hE) hu.symm ((hz.stays hE.stays halike).2 _ rfl)
        obtain ⟨z', hz', hm⟩ := ihs as rfl haslike
        rcases hm.of_ok with rfl | ⟨bs, rfl, rfl⟩
        · exact ⟨_, .args_error hf hz hz', erasesTo_overflow⟩
        · exact ⟨_, .args hf hz hz', .inr (congrArg Except.ok (Term.erase_apps h bs).symm)⟩
  | _, _, .args_error hf hw hs, t, ht, halike => by
      have ihs := hs.of_erase hE
      obtain ⟨z, hz, hm⟩ := exists_of_exposed hE halike fun u hu hue =>
        hw.of_erase hE u hu (hue.trans ht)
      rcases hm.of_ok with rfl | ⟨u, rfl, hu⟩
      · exact ⟨_, .error hz, erasesTo_overflow⟩
      · obtain ⟨h, as, rfl, -, rfl, rfl, -, haslike⟩ := app_of_erase
          ((hz.headNormal hE.sure _ rfl).exposed hE) hu.symm ((hz.stays hE.stays halike).2 _ rfl)
        obtain ⟨z', hz', hm⟩ := ihs as rfl haslike
        obtain ⟨e, rfl, he⟩ := hm.of_error
        exact ⟨_, .args_error hf hz hz', erasesTo_error he⟩
  | _, _, .head hf hw happ, t, ht, halike => by
      obtain ⟨z, hz, hm⟩ := exists_of_exposed hE halike fun u hu hue =>
        hw.of_erase hE u hu (hue.trans ht)
      rcases hm.of_ok with rfl | ⟨u, rfl, rfl⟩
      · exact ⟨_, .error hz, erasesTo_overflow⟩
      · rw [((hz.headNormal hE.sure _ rfl).exposed hE).isApp_erase] at happ
        exact ⟨_, .head hf hz happ, .inr rfl⟩
  | _, _, .error hw, t, ht, halike => by
      obtain ⟨z, hz, hm⟩ := exists_of_exposed hE halike fun u hu hue =>
        hw.of_erase hE u hu (hue.trans ht)
      obtain ⟨e, rfl, he⟩ := hm.of_error
      exact ⟨_, .error hz, erasesTo_error he⟩

theorem ToNorms.of_erase (hE : Erases cfg acts acts' L) : ∀ {xs : List (Term β σ)}
    {r' : Except (Halt β) (List (Term β σ))}, ToNorms cfg.erased acts' xs r' →
      ∀ ts, ts.map Term.erase = xs → L.AlikeArgs 0 ts ts →
      ∃ r, ToNorms cfg acts ts r ∧ ErasesTo (·.map Term.erase) r r'
  | _, _, .nil, [], _, _ => ⟨_, .nil, .inr rfl⟩
  | _, _, .cons hu hus, t :: ts, hts, .cons ht halike => by
      have ihs := hus.of_erase hE ts (List.cons.inj hts).2 halike
      obtain ⟨z, hz, hm⟩ := hu.of_erase hE t (List.cons.inj hts).1 ht
      rcases hm.of_ok with rfl | ⟨u, rfl, rfl⟩
      · exact ⟨_, .head_error hz, erasesTo_overflow⟩
      · obtain ⟨zs, hzs, hm⟩ := ihs
        rcases hm.of_ok with rfl | ⟨us, rfl, rfl⟩
        · exact ⟨_, .tail_error hz hzs, erasesTo_overflow⟩
        · exact ⟨_, .cons hz hzs, .inr rfl⟩
  | _, _, .head_error hu, t :: ts, hts, .cons ht _ => by
      obtain ⟨z, hz, hm⟩ := hu.of_erase hE t (List.cons.inj hts).1 ht
      obtain ⟨e, rfl, he⟩ := hm.of_error
      exact ⟨_, .head_error hz, erasesTo_error he⟩
  | _, _, .tail_error hu hus, t :: ts, hts, .cons ht halike => by
      have ihs := hus.of_erase hE ts (List.cons.inj hts).2 halike
      obtain ⟨z, hz, hm⟩ := hu.of_erase hE t (List.cons.inj hts).1 ht
      rcases hm.of_ok with rfl | ⟨u, rfl, rfl⟩
      · exact ⟨_, .head_error hz, erasesTo_overflow⟩
      · obtain ⟨zs, hzs, hm⟩ := ihs
        obtain ⟨e, rfl, he⟩ := hm.of_error
        exact ⟨_, .tail_error hz hzs, erasesTo_error he⟩
end

/-! ## Wrappers do not change what a term computes -/

/-- Pure steps that do not see wrappers: on erased arguments and with erased definitions they end as they
do with the wrappers, apart from those in the result.  Definitions and results of steps are canonical, as
all terms are that are built by applying and binding. -/
structure Setting.Transparent (cfg : Setting β σ) (p : Step σ → Prop) : Prop where
  /-- The steps are pure. -/
  pure : cfg.Pure p
  /-- They are pure with erased definitions too. -/
  pure_erased : cfg.erased.Pure p
  /-- Definitions are canonical. -/
  unfoldable : ∀ c b, cfg.env.unfoldable c = some b → b.Canonical
  /-- Results are canonical if the arguments are. -/
  result : ∀ s as w u, p s → (∀ a ∈ as, a.Canonical ∧ a.StepsAmong p) →
    ending (cfg.interp s.body cfg.env as w) = .ok (some u) → u.Canonical
  /-- Erasing before and after a step is the same. -/
  commutes : ∀ s as w w', p s → (∀ a ∈ as, a.Canonical ∧ a.StepsAmong p) →
    ending (cfg.interp s.body cfg.env.erased (as.map Term.erase) w') =
      (ending (cfg.interp s.body cfg.env as w)).map (·.map Term.erase)

variable {p : Step σ → Prop}

theorem good_args (has : (Likeness.among β True p).AlikeArgs 0 as as) :
    ∀ a ∈ as, a.Canonical ∧ a.StepsAmong p :=
  fun a ha => (Term.alikeArgs_among_iff.mp has a ha).imp_left fun hc => hc trivial

theorem Setting.Transparent.erases (h : cfg.Transparent p) (hflags : cfg.flags = .tactic) :
    Erases cfg (doesAct cfg) (doesAct cfg.erased) (.among β True p) where
  flags := hflags
  canonical := trivial
  sure := sure_doesAct cfg
  sure_erased := sure_doesAct cfg.erased
  stays :=
    { lookup := h.pure.stays.lookup
      unfoldable := fun c b _ hb =>
        Term.alike_among_iff.mpr ⟨fun _ => h.unfoldable c b hb, h.pure.unfoldable c b hb⟩
      deed := fun _ _ _ _ _ hx => hx
      result := fun s as u hs has hx => Term.alike_among_iff.mpr
        ⟨fun _ => h.result s as default u hs.2 (good_args has) (hx default),
          h.pure.result s as default u hs.2 (fun a ha => (good_args has a ha).2) (hx default)⟩ }
  total s as hs has :=
    ⟨_, fun w => h.pure.interp s as w default hs.2 fun a ha => (good_args has a ha).2⟩
  deed s as x hs has hx := by
    intro w'
    rw [← hx default]
    exact h.commutes s as default w' hs.2 (good_args has)

/-- With steps that do not see wrappers, normalizing a term without its wrappers, under definitions without
theirs, ends if normalizing the term does, and with the same outcome apart from wrappers, unless the latter
leaves the range of indices. -/
theorem erase_commutes (h : cfg.Transparent p) (hflags : cfg.flags = .tactic) (hcanonical : t.Canonical)
    (ht : t.StepsAmong p) {w : World β σ} (hrange : InRange (fun n => norm cfg n t) w)
    (w' : World β σ) (x' : Except (Issue β) (Term β σ)) :
    Settles (fun n => norm cfg.erased n t.erase) w' x' ↔
      ∃ x, Settles (fun n => norm cfg n t) w x ∧ x' = x.map Term.erase := by
  have hE := h.erases hflags
  have halike : (Likeness.among β True p).Alike 0 t t :=
    Term.alike_among_iff.mpr ⟨fun _ => hcanonical, ht⟩
  have hsteps : t.erase.StepsAmong p := (Term.alike_among_iff.mp halike.erase).2
  rw [h.pure_erased.toNorm_iff hsteps]
  constructor
  · intro hx'
    obtain ⟨r, hr, hover | hm⟩ := hx'.of_erase hE t rfl halike
    -- A run that leaves the range is ruled out by `hrange`.
    · obtain ⟨N, hN⟩ := hr.reaches hE.sure
      have hend := hN N (Nat.le_refl N) w
      obtain ⟨w₁, hw₁⟩ := ending_eq_error_iff.mp (hover ▸ hend)
      have hin := hrange N
      rw [hw₁] at hin
      cases hin
    · cases x' with
      | error e =>
          cases r with
          | error e' =>
              cases hm
              exact ⟨.error e, (h.pure.toNorm_iff ht).mpr hr, rfl⟩
          | ok u => cases hm
      | ok u' =>
          cases r with
          | error e' => cases hm
          | ok u =>
              cases hm
              exact ⟨.ok u, (h.pure.toNorm_iff ht).mpr hr, rfl⟩
  · rintro ⟨x, hx, rfl⟩
    have hnorm := ((h.pure.toNorm_iff ht).mp hx).erase hE halike (by cases x <;> nofun)
    cases x <;> exact hnorm

theorem pure_sample_visible (flags : Flags) : (sample flags).Pure fun s => s.body ≠ .inner where
  steps := by
    intro s hs
    rcases List.mem_pair.mp hs with rfl | rfl <;> nofun
  unfoldable := nofun
  interp _ _ _ _ _ _ := rfl
  result := by
    intro s as w u hs has hu
    rcases Sample.act_mem (Except.ok.inj hu) with hmem | ⟨l, rfl⟩
    · exact has u hmem
    · intro s hs
      cases List.mem_singleton.mp hs

/-- Those steps of the sample that do not look into their arguments do not see wrappers. -/
theorem transparent_sample (flags : Flags) :
    (sample flags).Transparent fun s => s.body ≠ .inner where
  pure := pure_sample_visible flags
  pure_erased := pure_sample_visible flags
  unfoldable := nofun
  result := by
    intro s as w u hs has hu
    rcases Sample.act_mem (Except.ok.inj hu) with hmem | ⟨l, rfl⟩
    · exact (has u hmem).1
    · trivial
  commutes := by
    rintro ⟨_, _, _, _, b⟩ as w w' hs has
    refine congrArg Except.ok ?_
    cases b with
    | first => exact List.head?_map
    | never => rfl
    | inner => exact absurd rfl hs

/-- A step with one argument behind an annotation and the other around it. -/
def wrappedSample : Term Unit Sample :=
  .app (.annotated (.app (.const "first") [.free "x"]) (.monadic "Tac"))
    [.reify (.lit (.int 2)), .lit (.int 3)]

theorem inRange_wrappedSample : InRange (fun n => norm (sample .tactic) n wrappedSample) {} := by
  intro n
  match n with
  | 0 | 1 | 2 | 3 | 4 | 5 | 6 | 7 | 8 | 9 | 10 | 11 => rfl
  | n + 12 => rfl

/-- The step is fired on both, before and after erasing. -/
theorem erase_commutes_wrapped : Settles (fun n => norm (sample .tactic).erased n wrappedSample.erase)
    {} (.ok (.app (.free "x") [.lit (.int 3)])) := by
  refine (erase_commutes (transparent_sample .tactic) rfl ?_ ?_ inRange_wrappedSample {} _).mpr
    ⟨.ok (.app (.free "x") [.lit (.int 3)]), ⟨12, fun n hn => ?_⟩, rfl⟩
  · exact ⟨rfl, nofun, ⟨rfl, nofun, trivial, trivial, trivial⟩, trivial, trivial, trivial⟩
  · intro s hs
    simp [wrappedSample, Term.subterms, Term.subtermsArgs] at hs
  · obtain ⟨n, rfl⟩ := Nat.exists_eq_add_of_le' hn
    rfl

/-- A variable that is given a value, with a type in which substitution leaves the range of indices. -/
def overflowSample : Term Unit Sample :=
  .app (.lam 1 (.ascribed (.bvar 0) (.lam 4294967295 (.lam 1 (.bvar 0))))) [.lit (.int 1)]

/-- Putting the value in fails because of the type, and ends in the value without it. -/
theorem erase_overflow :
    (¬ ∃ x, Settles (fun n => norm (sample .tactic) n overflowSample) {} x) ∧
    Settles (fun n => norm (sample .tactic).erased n overflowSample.erase) {} (.ok (.lit (.int 1))) := by
  constructor
  · rintro ⟨x, n, hn⟩
    have := hn (n + 12) (by omega)
    cases this
  · refine ⟨12, fun n hn => ?_⟩
    obtain ⟨n, rfl⟩ := Nat.exists_eq_add_of_le' hn
    rfl

end Reduce

end TacticEngine
