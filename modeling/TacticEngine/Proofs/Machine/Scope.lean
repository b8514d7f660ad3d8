/-
# TacticEngine.Proofs.Machine.Scope -- variables have values.

Code looks up variables in a frame, and closures, suspended computations and stuck case distinctions keep
the frame that their sources are to be read in.  `Code.Scoped`, `Value.Scoped` and `Call.Scoped` say that the
frame is long enough wherever one is kept or used.  If steps take closed terms to closed terms and definitions are
closed, then no call of a session looks up a variable that its frame does not have, and no term that comes
out of the machine or the reducer has a free index (`scope_safety`).
-/
import TacticEngine.Proofs.Agreement.Functional
import TacticEngine.Proofs.Likeness.Equality
import TacticEngine.Proofs.Likeness.Machine
import TacticEngine.Proofs.Machine.Calls

namespace TacticEngine

variable {β σ : Type}

/-! ## Indices -/

namespace Term

/-- `instantiateVar?` with a subtraction that fails where there is less than is to be taken away. -/
def instantiateVarChecked? (vals : List (Term β σ)) (k i : Nat) : Option (Term β σ) :=
  match vals[i - k]? with
  | some v => v.shift? k 0
  | none => if vals.length ≤ i then some (.bvar (i - vals.length)) else none

theorem instantiateVarChecked?_eq (vals : List (Term β σ)) {k i : Nat} (hk : k ≤ i) :
    instantiateVarChecked? vals k i = instantiateVar? vals k i := by
  unfold instantiateVarChecked? instantiateVar?
  cases hv : vals[i - k]? with
  | some v => rfl
  | none =>
      have hle : vals.length ≤ i - k := List.getElem?_eq_none_iff.mp hv
      exact if_pos (by omega)

end Term

namespace Machine

variable {α : Type}

/-! ## Frames that are long enough -/

mutual
/-- In a frame of `k` values, the code finds all variables that it looks up, and so do the sources in it. -/
def Code.Scoped (k : Nat) : Code β σ → Prop
  | .var i => i < k
  | .step t _ | .neutral t => t.Closed
  | .app h args => h.Scoped k ∧ Delayed.AllScoped k args
  | .lam n src body => src.ClosedBelow k ∧ body.Scoped (k + n)
  | .case s brs => s.Scoped k ∧ Code.BranchesScoped k brs
  | .const _ _ | .ctor _ | .lit _ | .blob _ => True

/-- The same of arguments. -/
def Delayed.AllScoped (k : Nat) : List (Delayed β σ) → Prop
  | [] => True
  | .var i :: ds => i < k ∧ Delayed.AllScoped k ds
  | .thunk src code :: ds => src.ClosedBelow k ∧ code.Scoped k ∧ Delayed.AllScoped k ds
  | .lit _ :: ds | .blob _ :: ds => Delayed.AllScoped k ds

/-- The same of branches, under the variables that they bind. -/
def Code.BranchesScoped (k : Nat) : List (Branch (Term β σ × Code β σ)) → Prop
  | [] => True
  | ⟨p, (src, code)⟩ :: brs => src.ClosedBelow (k + p.binders) ∧ code.Scoped (k + p.binders) ∧
      Code.BranchesScoped k brs
end

mutual
/-- Every frame in the value has the variables of what it is kept for. -/
def Value.Scoped : Value β σ → Prop
  | .ctor _ args => Value.AllScoped args
  | .lam n src body frame held => src.ClosedBelow frame.length ∧ body.Scoped (frame.length + n) ∧
      Value.AllScoped frame ∧ Value.AllScoped held
  | .step t _ held | .neutral t held => t.Closed ∧ Value.AllScoped held
  | .stuck s brs frame args => s.Scoped ∧ Term.ClosedBelowBranches frame.length brs ∧
      Value.AllScoped frame ∧ Value.AllScoped args
  | .thunk _ src frame code? => src.ClosedBelow frame.length ∧ Value.AllScoped frame ∧
      ∀ code, code? = some code → code.Scoped frame.length
  | .lit _ | .blob _ => True

/-- The same of a list of values. -/
def Value.AllScoped : List (Value β σ) → Prop
  | [] => True
  | v :: vs => v.Scoped ∧ Value.AllScoped vs
end

/-- What is in the slots is no suspended computation, and its frames are long enough. -/
def Heap.Scoped (h : Heap β σ) : Prop :=
  ∀ slot v, h.read slot = some v → v.Scoped ∧ v.isThunk = false

/-- The frame of a call is as long as its code asks for, and so are those in its arguments. -/
def Call.Scoped : Call β σ → Prop
  | .run code frame => code.Scoped frame.length ∧ Value.AllScoped frame
  | .unfold _ => True
  | .force v | .readback v => v.Scoped
  | .apply f args | .applyForced f args | .applyRest f args => f.Scoped ∧ Value.AllScoped args

section

variable {L : Likeness β σ} {plain : String → Prop}

mutual
theorem Code.Alike.scoped (hL : L.closed) : ∀ {k : Nat} {c c' : Code β σ},
    Code.Alike L plain k c c' → c.Scoped k
  | _, _, _, .var hi => hi hL
  | _, _, _, .step ht _ | _, _, _, .neutral ht => ht.closedBelow hL
  | _, _, _, .app h has => ⟨h.scoped hL, has.scoped hL⟩
  | _, _, _, .lam ht h => ⟨ht.closedBelow hL, h.scoped hL⟩
  | _, _, _, .case h hbrs => ⟨h.scoped hL, hbrs.scoped hL⟩
  | _, _, _, .const _ | _, _, _, .ctor | _, _, _, .lit | _, _, _, .blob _ => trivial

theorem Delayed.AlikeArgs.scoped (hL : L.closed) : ∀ {k : Nat} {ds ds' : List (Delayed β σ)},
    Delayed.AlikeArgs L plain k ds ds' → Delayed.AllScoped k ds
  | _, _, _, .nil => trivial
  | _, _, _, .cons (.var hi) hds => ⟨hi hL, hds.scoped hL⟩
  | _, _, _, .cons (.thunk ht h) hds => ⟨ht.closedBelow hL, h.scoped hL, hds.scoped hL⟩
  | _, _, _, .cons .lit hds | _, _, _, .cons (.blob _) hds => hds.scoped hL

theorem Code.AlikeBranches.scoped (hL : L.closed) : ∀ {k : Nat}
    {brs brs' : List (Branch (Term β σ × Code β σ))}, Code.AlikeBranches L plain k brs brs' →
      Code.BranchesScoped k brs
  | _, _, _, .nil => trivial
  | _, _, _, .cons ht h hbrs => ⟨ht.closedBelow hL, h.scoped hL, hbrs.scoped hL⟩
end

mutual
theorem Value.Alike.scoped (hL : L.closed) : ∀ {v v' : Value β σ}, Value.Alike L plain v v' → v.Scoped
  | _, _, .ctor hvs => hvs.scoped hL
  | _, _, .lam ht hc hfs hvs => ⟨ht.closedBelow hL, hc.scoped hL, hfs.scoped hL, hvs.scoped hL⟩
  | _, _, .step ht _ hvs | _, _, .neutral ht hvs => ⟨ht.closedBelow hL, hvs.scoped hL⟩
  | _, _, .stuck hs hbrs hfs hvs =>
      ⟨hs.scoped hL, hbrs.closedBelowBranches hL, hfs.scoped hL, hvs.scoped hL⟩
  | _, _, .unknown ht hfs => ⟨ht.closedBelow hL, hfs.scoped hL, nofun⟩
  | _, _, .thunk ht hfs hc =>
      ⟨ht.closedBelow hL, hfs.scoped hL, fun _ h => Option.some.inj h ▸ hc.scoped hL⟩
  | _, _, .lit | _, _, .blob _ => trivial

theorem Value.AlikeArgs.scoped (hL : L.closed) : ∀ {vs vs' : List (Value β σ)},
    Value.AlikeArgs L plain vs vs' → Value.AllScoped vs
  | _, _, .nil => trivial
  | _, _, .cons hv hvs => ⟨hv.scoped hL, hvs.scoped hL⟩
end

end

/-! ## What is kept -/

section

variable (allowed : Step σ → Prop)

/-- The likeness that stands for `Term.ClosedAmong`. -/
def scopeLikeness : Likeness β σ where
  closed := True
  canonical := False
  const _ := True
  blob := Eq
  step s s' := s = s' ∧ allowed s

/-- Definitions are closed, and allowed steps take closed terms to closed terms; the machine does no more
with values than to read them back for a step. -/
structure Closing (cfg : Setting β σ) : Prop where
  /-- The steps of the table are allowed. -/
  steps : ∀ s ∈ cfg.steps, allowed s
  /-- Definitions are closed. -/
  unfoldable : ∀ c t, cfg.env.unfoldable c = some t → t.ClosedAmong allowed
  /-- Steps get the terms of values. -/
  direct : ∀ s, allowed s → cfg.direct s.body = none
  /-- Given closed terms, a step gives a closed term, if any. -/
  interp : ∀ s ts w t w', allowed s → (∀ a ∈ ts, a.ClosedAmong allowed) →
    cfg.interp s.body cfg.env ts w = .ok (some t) w' → t.ClosedAmong allowed

/-- What allowed steps break off with, given closed terms. -/
def Raises (cfg : Setting β σ) (e : Issue β) : Prop :=
  ∃ s ts w w', allowed s ∧ (∀ a ∈ ts, a.ClosedAmong allowed) ∧
    cfg.interp s.body cfg.env ts w = .error (.issue e) w'

/-- Runs in one world, of which nothing is said but by what issues they break off. -/
def scopeTie (raised : Issue β → Prop) : Tie (Halt β) (World β σ) (Halt β) (World β σ) where
  state := Eq
  halt e e' := e = e' ∧ ∀ i, e = .issue i → raised i
  mute e _ := e = .exhausted
  escape _ _ := False

/-- The heap holds closed values, none of them suspended. -/
def Sound (h : Heap β σ) : Prop := Heap.Alike (scopeLikeness allowed) (fun _ => True) h h

/-- From a sound heap, the evaluation gives a result with the property and leaves a sound heap, also where it
breaks off; unless it uses up its fuel.  It breaks off with one of the given issues only. -/
def Guarded (raised : Issue β → Prop) (V : α → Prop) (act : Eval β σ α) : Prop :=
  ∀ m, Sound allowed m.heap → match act m with
    | .ok a m' => V a ∧ Sound allowed m'.heap
    | .error e m' => e ≠ .exhausted → Sound allowed m'.heap ∧ ∀ i, e = .issue i → raised i

end

variable {allowed : Step σ → Prop} {cfg : Setting β σ} {raised : Issue β → Prop}

theorem scopeLikeness_strict : (scopeLikeness allowed : Likeness β σ).Strict := ⟨id, And.left⟩

theorem closedAmong_iff {t : Term β σ} :
    t.ClosedAmong allowed ↔ (scopeLikeness allowed).Alike 0 t t := by
  constructor
  · rintro ⟨hclosed, hsteps⟩
    refine Term.alike_self (fun _ => hclosed) False.elim fun u hu => ?_
    cases u with
    | blob b => exact rfl
    | native s => exact ⟨rfl, hsteps s hu⟩
    | _ => trivial
  · exact fun h => ⟨h.closedBelow trivial, fun s hs => (h.fits _ hs).2⟩

theorem closedAmong_args_iff {ts : List (Term β σ)} :
    (∀ t ∈ ts, t.ClosedAmong allowed) ↔ (scopeLikeness allowed).AlikeArgs 0 ts ts := by
  rw [Term.alikeArgs_iff_forall₂, List.forall₂_same]
  exact forall₂_congr fun t _ => closedAmong_iff

theorem fair_scope : (scopeTie raised).Fair (scopeLikeness (β := β) allowed) where
  exhausted _ := rfl
  overflow := .inr ⟨rfl, nofun⟩
  fired := by
    rintro w _ s _ ts ts' rfl ⟨rfl, -⟩ hts
    rw [hts.eq scopeLikeness_strict]
    rfl
  debug level text := by
    refine .const ?_
    rintro w _ rfl
    rw [Act.debug_run]
    cases w.debugging
    · exact .ok trivial rfl
    · exact .ok trivial rfl

theorem keepsArity_scope : (scopeLikeness (β := β) allowed).KeepsArity := by
  rintro s _ ⟨rfl, -⟩
  exact ⟨rfl, rfl⟩

namespace Closing

/-- A setting that is closed is like itself. -/
theorem like (h : Closing allowed cfg) :
    Setting.Like (scopeTie (Raises allowed cfg)) (scopeLikeness allowed) (fun _ => True) cfg cfg
      fun _ => cfg.interp where
  lookup c _ := by
    cases hs : cfg.steps.lookup c with
    | none => exact .none
    | some s => exact .some ⟨rfl, h.steps s (List.mem_of_find?_eq_some hs)⟩
  plain_of_lookup _ _ _ := trivial
  const_of_plain _ _ := trivial
  unfoldable c _ := by
    cases ht : cfg.env.unfoldable c with
    | none => exact .none
    | some t => exact .some (closedAmong_iff.mp (h.unfoldable c t ht))
  interp := by
    rintro s _ ts ts' ⟨rfl, hs⟩ hts
    obtain rfl := hts.eq scopeLikeness_strict
    have hargs := closedAmong_args_iff.mpr hts
    rintro w _ rfl
    cases hr : cfg.interp s.body cfg.env ts w with
    | ok t? w' =>
        refine .inr ⟨_, .const _ w, ?_⟩
        rw [hr]
        refine .ok ?_ rfl
        cases t? with
        | none => exact .none
        | some t => exact .some (closedAmong_iff.mp (h.interp s ts w t w' hs hargs hr))
    | error e w' =>
        cases e with
        | exhausted => exact .inl ⟨.exhausted, w', rfl, rfl⟩
        | overflow =>
            refine .inr ⟨_, .const _ w, ?_⟩
            rw [hr]
            exact .error ⟨rfl, nofun⟩ rfl
        | issue e =>
            refine .inr ⟨_, .const _ w, ?_⟩
            rw [hr]
            refine .error ⟨rfl, ?_⟩ rfl
            rintro _ ⟨⟩
            exact ⟨s, ts, w, w', hs, hargs, hr⟩
  direct := by
    rintro s _ ⟨rfl, hs⟩
    rw [h.direct s hs]
    exact .none
  unbound := .inl trivial

end Closing

/-! ## Guarded evaluations -/

theorem Heap.Alike.sound {h h' : Heap β σ}
    (hh : Heap.Alike (scopeLikeness allowed) (fun _ => True) h h') : Sound allowed h := by
  refine ⟨rfl, fun i => ?_⟩
  have hread := hh.read i
  generalize h.read i = x at hread ⊢
  generalize h'.read i = x' at hread
  cases hread with
  | none => exact .none
  | some hv =>
      have heq := hv.1.eq scopeLikeness_strict
      subst heq
      exact .some hv

theorem Guarded.of_follows {V : α → α → Prop} {act : Eval β σ α}
    {F : Family (Halt β) (Memory β σ) α}
    (h : (withHeaps (scopeLikeness allowed) (fun _ => True) (scopeTie raised)).Follows V act F)
    (hV : ∀ a a', V a a' → a = a') : Guarded allowed raised (fun a => V a a) act := by
  intro m hm
  rcases h m m ⟨hm, rfl⟩ with ⟨e, m', hr, rfl⟩ | ⟨r', -, hmatch⟩
  · rw [hr]
    exact fun hne => absurd rfl hne
  · generalize act m = r at hmatch
    cases hmatch with
    | ok ha hs =>
        obtain rfl := hV _ _ ha
        exact ⟨ha, hs.1.sound⟩
    | error he hs => exact fun _ => ⟨hs.1.sound, he.2⟩
    | escape he => exact he.elim

theorem Guarded.ok {V : α → Prop} {act : Eval β σ α} (h : Guarded allowed raised V act) {a : α}
    {m m' : Memory β σ} (hm : Sound allowed m.heap) (hr : act m = .ok a m') :
    V a ∧ Sound allowed m'.heap := by
  have hact := h m hm
  rwa [hr] at hact

theorem Guarded.error {V : α → Prop} {act : Eval β σ α} (h : Guarded allowed raised V act)
    {e : Halt β} {m m' : Memory β σ} (hm : Sound allowed m.heap) (hr : act m = .error e m')
    (he : e ≠ .exhausted) : Sound allowed m'.heap ∧ ∀ i, e = .issue i → raised i := by
  have hact := h m hm
  rw [hr] at hact
  exact hact he

/-! ## Calls -/

section

variable (allowed)

/-- Everything in a value is closed and allowed. -/
def Value.Fits (v : Value β σ) : Prop := Value.Alike (scopeLikeness allowed) (fun _ => True) v v

/-- Everything in these values is closed and allowed. -/
def Value.AllFit (vs : List (Value β σ)) : Prop :=
  Value.AlikeArgs (scopeLikeness allowed) (fun _ => True) vs vs

/-- Everything in a call is closed and allowed.  Surplus arguments are passed to a forced value. -/
def Call.Fits : Call β σ → Prop
  | .run code frame =>
      Code.Alike (scopeLikeness allowed) (fun _ => True) frame.length code code ∧ Value.AllFit allowed frame
  | .unfold _ => True
  | .force v | .readback v => v.Fits allowed
  | .apply f args | .applyForced f args => f.Fits allowed ∧ Value.AllFit allowed args
  | .applyRest v rest => (v.Fits allowed ∧ v.isThunk = false) ∧ Value.AllFit allowed rest

/-- What calls give: forced values and closed terms. -/
def Reply.Fits : Reply β σ → Prop
  | .value v => v.Fits allowed ∧ v.isThunk = false
  | .term t => t.ClosedAmong allowed

end

theorem Value.allFit_iff {vs : List (Value β σ)} : Value.AllFit allowed vs ↔ ∀ v ∈ vs, v.Fits allowed := by
  rw [Value.AllFit, Value.alikeArgs_iff_forall₂, List.forall₂_same]
  rfl

theorem Value.Fits.held {v : Value β σ} (hv : v.Fits allowed) : Value.AllFit allowed v.held := by
  cases v with
  | ctor => cases hv with | ctor hvs => exact hvs
  | lam => cases hv with | lam _ _ _ hvs => exact hvs
  | step => cases hv with | step _ _ hvs => exact hvs
  | neutral => cases hv with | neutral _ hvs => exact hvs
  | stuck => cases hv with | stuck _ _ _ hvs => exact hvs
  | lit | blob | thunk => exact .nil

section

variable {n : Nat} {m m' : Memory β σ} {c c' : Call β σ}

theorem guarded_map {V : α → Prop} {γ : Type} {U : γ → Prop} {act : Eval β σ α} {f : α → γ}
    (h : Guarded allowed raised V act) (hf : ∀ a, V a → U (f a)) :
    Guarded allowed raised U (do return f (← act)) := by
  intro m hm
  have hact := h m hm
  cases hr : act m with
  | ok a m' =>
      rw [hr] at hact
      rw [run_bind_ok hr]
      exact ⟨hf a hact.1, hact.2⟩
  | error e m' =>
      rw [hr] at hact
      rw [run_bind_error hr]
      exact hact

/-- A call that fits gives what fits, and breaks off only where a step does. -/
theorem Call.Fits.perform (h : Closing allowed cfg) (hc : c.Fits allowed) (n : Nat) :
    Guarded allowed (Raises allowed cfg) (Reply.Fits allowed) (c.perform cfg n) := by
  have hat := alikeAt fair_scope keepsArity_scope h.like n
  have heq : ∀ v v' : Value β σ, Value.AlikeForced (scopeLikeness allowed) (fun _ => True) v v' →
      v = v' := fun _ _ hv => hv.1.eq scopeLikeness_strict
  cases c with
  | run code frame => exact guarded_map (.of_follows (hat.run hc.1 hc.2) heq) fun _ hv => hv
  | unfold c => exact guarded_map (.of_follows (hat.unfold (c := c) trivial) heq) fun _ hv => hv
  | force v => exact guarded_map (.of_follows (hat.force hc) heq) fun _ hv => hv
  | apply f args => exact guarded_map (.of_follows (hat.apply hc.1 hc.2) heq) fun _ hv => hv
  | applyForced f args =>
      exact guarded_map (.of_follows (hat.applyForced hc.1 hc.2) heq) fun _ hv => hv
  | applyRest v rest => exact guarded_map (.of_follows (hat.applyRest hc.1 hc.2) heq) fun _ hv => hv
  | readback v =>
      exact guarded_map (.of_follows (hat.readback hc) fun _ _ ht => ht.eq scopeLikeness_strict)
        fun _ ht => closedAmong_iff.mpr ht

/-! ### What precedes a call within another one -/

section

variable (h : Closing allowed cfg) (hm : Sound allowed m.heap)

include h hm

theorem Closing.run_ok {code : Code β σ} {frame : List (Value β σ)} {v : Value β σ}
    (hc : (Call.run code frame).Fits allowed) (hr : run cfg n code frame m = .ok v m') :
    (v.Fits allowed ∧ v.isThunk = false) ∧ Sound allowed m'.heap :=
  (hc.perform h n).ok hm (run_bind_ok hr)

theorem Closing.force_ok {v u : Value β σ} (hv : v.Fits allowed) (hr : force cfg n v m = .ok u m') :
    (u.Fits allowed ∧ u.isThunk = false) ∧ Sound allowed m'.heap :=
  (Call.Fits.perform (c := .force v) h hv n).ok hm (run_bind_ok hr)

theorem Closing.readbacks_ok {vs : List (Value β σ)} {ts : List (Term β σ)}
    (hvs : Value.AllFit allowed vs) (hr : vs.mapM (readback cfg n) m = .ok ts m') :
    Sound allowed m'.heap := by
  have hat := alikeAt fair_scope keepsArity_scope h.like n
  have hall := Guarded.of_follows
    (Tie.Follows.mapM (fun _ _ hu => hat.readback hu) (Value.alikeArgs_iff_forall₂.mp hvs))
    fun _ _ hts => (Term.alikeArgs_iff_forall₂.mpr hts).eq scopeLikeness_strict
  exact (hall.ok hm hr).2

theorem Closing.delayed_ok {frame : List (Value β σ)} {as : List (Delayed β σ)}
    {vs : List (Value β σ)} (hframe : Value.AllFit allowed frame)
    (has : Delayed.AlikeArgs (scopeLikeness allowed) (fun _ => True) frame.length as as)
    (hr : as.mapM (delayed frame) m = .ok vs m') : Value.AllFit allowed vs ∧ Sound allowed m'.heap := by
  have hlike := h.like
  have hall := Guarded.of_follows
    (Tie.Follows.mapM (fun _ _ hd => delayed_follows hlike.unbound hframe hd)
      (Delayed.alikeArgs_iff_forall₂.mp has))
    fun _ _ hvs => (Value.alikeArgs_iff_forall₂.mpr hvs).eq scopeLikeness_strict
  obtain ⟨hvs, hm'⟩ := hall.ok hm hr
  exact ⟨Value.alikeArgs_iff_forall₂.mpr hvs, hm'⟩

theorem Closing.compile_ok {k : Nat} {t : Term β σ} {code : Code β σ}
    (ht : (scopeLikeness allowed).Alike k t t)
    (hr : inHeap (·.reserve (compile cfg.steps t)) m = .ok code m') :
    Code.Alike (scopeLikeness allowed) (fun _ => True) k code code ∧ Sound allowed m'.heap := by
  have hlike := h.like
  have hall : Guarded allowed (Raises allowed cfg)
      (fun c => Code.Alike (scopeLikeness allowed) (fun _ => True) k c c)
      (inHeap (·.reserve (compile cfg.steps t))) :=
    .of_follows (reserve_follows (compile_alike hlike.lookup hlike.plain_of_lookup ht))
      fun _ _ hc => hc.eq scopeLikeness_strict
  exact hall.ok hm hr

theorem Closing.fire_ok {s : Step σ} {vs : List (Value β σ)} {v? : Option (Value β σ)}
    (hs : allowed s) (hvs : Value.AllFit allowed vs)
    (hr : fire cfg (readback cfg n) s vs m = .ok v? m') :
    (∀ v, v? = some v → v.Fits allowed) ∧ Sound allowed m'.heap := by
  have hlike := h.like
  have hat := alikeAt fair_scope keepsArity_scope hlike n
  have hall := Guarded.of_follows (fire_alike hat hlike fair_scope ⟨rfl, hs⟩ hvs) fun v? v?' hv => by
    cases hv with
    | none => rfl
    | some hv => rw [hv.eq scopeLikeness_strict]
  obtain ⟨hv, hm'⟩ := hall.ok hm hr
  refine ⟨?_, hm'⟩
  rintro v rfl
  cases hv with
  | some hv => exact hv

end

theorem ofTerm_ok {t : Term β σ} {v : Value β σ} (ht : (scopeLikeness allowed).Alike 0 t t)
    (hm : Sound allowed m.heap) (hr : ofTerm t m = .ok v m') : v.Fits allowed ∧ Sound allowed m'.heap := by
  have hall : Guarded allowed (fun _ => True)
      (fun v => Value.Alike (scopeLikeness allowed) (fun _ => True) v v) (ofTerm t) :=
    .of_follows (ofTerm_follows ht) fun _ _ hv => hv.eq scopeLikeness_strict
  exact hall.ok hm hr

theorem lookup_ok {frame : List (Value β σ)} {i : Nat} {v : Value β σ}
    (hr : lookup frame i m = .ok v m') : frame[i]? = some v ∧ m' = m := by
  unfold lookup at hr
  cases hu : frame[i]? with
  | none =>
      rw [hu] at hr
      cases hr
  | some u =>
      rw [hu] at hr
      cases hr
      exact ⟨rfl, rfl⟩

end

/-- A closure that has enough arguments runs in a frame that has them all. -/
theorem Call.Fits.body {n : Nat} {src : Term β σ} {body : Code β σ} {frame held args : List (Value β σ)}
    (hc : (Call.applyForced (.lam n src body frame held) args).Fits allowed)
    (hn : n ≤ (held ++ args).length) :
    (Call.run body (((held ++ args).take n).reverse ++ frame)).Fits allowed ∧
      Value.AllFit allowed ((held ++ args).drop n) := by
  obtain ⟨hf, hargs⟩ := hc
  cases hf with
  | lam ht hbody hfs hheld =>
      have hall := hheld.append hargs
      refine ⟨⟨?_, (hall.take n).reverse.append hfs⟩, hall.drop n⟩
      have hlen : (((held ++ args).take n).reverse ++ frame).length = frame.length + n := by
        rw [List.length_append, List.length_reverse, List.length_take]
        omega
      rwa [hlen]

/-- A step that has enough arguments is allowed, and they fit. -/
theorem Call.Fits.step {t : Term β σ} {s : Step σ} {held args : List (Value β σ)}
    (hc : (Call.applyForced (.step t s held) args).Fits allowed) : allowed s ∧
      Value.AllFit allowed ((held ++ args).take s.arity) ∧
      Value.AllFit allowed ((held ++ args).drop s.arity) := by
  obtain ⟨hf, hargs⟩ := hc
  cases hf with
  | step ht hs hheld =>
      have hall := hheld.append hargs
      exact ⟨hs.2, hall.take _, hall.drop _⟩

/-- Of values that fit, every one does. -/
theorem Value.AllFit.split {vs before after : List (Value β σ)} {v : Value β σ}
    (hvs : Value.AllFit allowed vs) (heq : vs = before ++ v :: after) :
    Value.AllFit allowed before ∧ v.Fits allowed := by
  have hall := Value.allFit_iff.mp hvs
  rw [heq, List.forall_mem_append, List.forall_mem_cons] at hall
  exact ⟨Value.allFit_iff.mpr hall.1, hall.2.1⟩

/-- A call that fits makes only calls that fit, from sound heaps. -/
theorem Calls.fits {n : Nat} {c c' : Call β σ} {m m' : Memory β σ} (h : Closing allowed cfg)
    (hcall : Calls cfg n c m c' m') (hc : c.Fits allowed) (hm : Sound allowed m.heap) :
    c'.Fits allowed ∧ Sound allowed m'.heap := by
  cases hcall with
  | var hr =>
      obtain ⟨hv, rfl⟩ := lookup_ok hr
      exact ⟨Value.allFit_iff.mp hc.2 _ (List.mem_of_getElem? hv), hm⟩
  | const _ => exact ⟨trivial, hm⟩
  | step =>
      cases hc.1 with
      | step ht hs => exact ⟨⟨.step ht hs .nil, .nil⟩, hm⟩
  | head =>
      cases hc.1 with
      | app hh has => exact ⟨⟨hh, hc.2⟩, hm⟩
  | app hf hvs =>
      cases hc.1 with
      | app hh has =>
          obtain ⟨⟨hf, -⟩, hm₁⟩ := h.run_ok hm ⟨hh, hc.2⟩ hf
          obtain ⟨hvs, hm₂⟩ := h.delayed_ok hm₁ hc.2 has hvs
          exact ⟨⟨hf, hvs⟩, hm₂⟩
  | scrutinee =>
      cases hc.1 with
      | case hs hbrs => exact ⟨⟨hs, hc.2⟩, hm⟩
  | branch hv hsel =>
      cases hc.1 with
      | case hs hbrs =>
          obtain ⟨⟨hv, -⟩, hm₁⟩ := h.run_ok hm ⟨hs, hc.2⟩ hv
          have hrel := select_alike hv hbrs
          rw [hsel] at hrel
          cases hrel with
          | some hrel =>
              refine ⟨⟨?_, hrel.2.reverse.append hc.2⟩, hm₁⟩
              rw [List.length_append, List.length_reverse, Nat.add_comm]
              exact hrel.1
  | definition hb hcode =>
      obtain ⟨hcode, hm₁⟩ := h.compile_ok hm (closedAmong_iff.mp (h.unfoldable _ _ hb)) hcode
      exact ⟨⟨hcode, .nil⟩, hm₁⟩
  | compiled _ =>
      cases hc with
      | thunk ht hfs hcode => exact ⟨⟨hcode, hfs⟩, hm⟩
  | uncompiled _ hcode =>
      cases hc with
      | unknown ht hfs =>
          obtain ⟨hcode, hm₁⟩ := h.compile_ok hm ht hcode
          exact ⟨⟨hcode, hfs⟩, hm₁⟩
  | function => exact ⟨hc.1, hm⟩
  | applied hg =>
      obtain ⟨⟨hg, -⟩, hm₁⟩ := h.force_ok hm hc.1 hg
      exact ⟨⟨hg, hc.2⟩, hm₁⟩
  | body hn => exact ⟨(hc.body hn).1, hm⟩
  | surplus hn hv =>
      obtain ⟨hbody, hlater⟩ := hc.body hn
      obtain ⟨hv, hm₁⟩ := h.run_ok hm hbody hv
      exact ⟨⟨hv, hlater⟩, hm₁⟩
  | argument _ _ hnow hts =>
      obtain ⟨hbefore, hv⟩ := hc.step.2.1.split hnow
      exact ⟨hv, h.readbacks_ok hm hbefore hts⟩
  | result _ hr =>
      obtain ⟨hs, hnow, -⟩ := hc.step
      obtain ⟨hv, hm₁⟩ := h.fire_ok hm hs hnow hr
      exact ⟨hv _ rfl, hm₁⟩
  | fired _ hr hu =>
      obtain ⟨hs, hnow, hlater⟩ := hc.step
      obtain ⟨hv, hm₁⟩ := h.fire_ok hm hs hnow hr
      obtain ⟨hu, hm₂⟩ := h.force_ok hm₁ (hv _ rfl) hu
      exact ⟨⟨hu, hlater⟩, hm₂⟩
  | declined _ hr heq hts =>
      obtain ⟨hs, hnow, -⟩ := hc.step
      obtain ⟨-, hm₁⟩ := h.fire_ok hm hs hnow hr
      obtain ⟨hbefore, hv⟩ := hnow.split heq
      exact ⟨hv, h.readbacks_ok hm₁ hbefore hts⟩
  | suspended => exact ⟨hc.1, hm⟩
  | resumed hv =>
      obtain ⟨hv, hm₁⟩ := h.force_ok hm hc.1 hv
      exact ⟨⟨hv, hc.2⟩, hm₁⟩
  | rest _ => exact ⟨⟨hc.1.1, hc.2⟩, hm⟩
  | forced => exact ⟨hc, hm⟩
  | held hu hheld hts =>
      obtain ⟨⟨hu, -⟩, hm₁⟩ := h.force_ok hm hc hu
      obtain ⟨hbefore, ha⟩ := hu.held.split hheld
      exact ⟨ha, h.readbacks_ok hm₁ hbefore hts⟩

/-! ## Sessions -/

theorem sound_empty : Sound allowed ({} : Heap β σ) := Heap.Alike.empty

theorem Entry.fits {vs : List (Value β σ)} {m m' : Memory β σ} {c : Call β σ} (h : Closing allowed cfg)
    (he : Entry cfg allowed vs m c m') (hm : Sound allowed m.heap) (hvs : Value.AllFit allowed vs) :
    c.Fits allowed ∧ Sound allowed m'.heap := by
  have hall := Value.allFit_iff.mp hvs
  cases he with
  | eval ht hcode =>
      obtain ⟨hcode, hm'⟩ := h.compile_ok hm (closedAmong_iff.mp ht) hcode
      exact ⟨⟨hcode, .nil⟩, hm'⟩
  | force hv | readback hv => exact ⟨hall _ hv, hm⟩
  | apply hf hargs => exact ⟨⟨hall _ hf, Value.allFit_iff.mpr fun a ha => hall a (hargs a ha)⟩, hm⟩

/-- A session keeps the heap sound, and a host gets hold only of values that fit. -/
theorem Session.fits {m : Memory β σ} {vs : List (Value β σ)} (h : Closing allowed cfg)
    (hs : Session cfg allowed m vs) : Sound allowed m.heap ∧ Value.AllFit allowed vs := by
  induction hs with
  | start w => exact ⟨sound_empty, .nil⟩
  | elsewhere w _ ih => exact ih
  | suspended _ ht hr ih =>
      obtain ⟨hv, hm'⟩ := ofTerm_ok (closedAmong_iff.mp ht) ih.1 hr
      exact ⟨hm', .cons hv ih.2⟩
  | returned _ he hr ih =>
      obtain ⟨hc, hm₁⟩ := he.fits h ih.1 ih.2
      obtain ⟨hv, hm'⟩ := (hc.perform h _).ok hm₁ hr
      exact ⟨hm', .cons hv.1 ih.2⟩
  | read _ he hr ih =>
      obtain ⟨hc, hm₁⟩ := he.fits h ih.1 ih.2
      exact ⟨((hc.perform h _).ok hm₁ hr).2, ih.2⟩
  | brokeOff _ he hr hne ih =>
      obtain ⟨hc, hm₁⟩ := he.fits h ih.1 ih.2
      exact ⟨((hc.perform h _).error hm₁ hr hne).1, ih.2⟩

/-- All calls of a session fit and start from sound heaps. -/
theorem Reached.fits {n : Nat} {c : Call β σ} {m : Memory β σ} (h : Closing allowed cfg)
    (hc : Reached cfg allowed n c m) : c.Fits allowed ∧ Sound allowed m.heap := by
  induction hc with
  | entry hs he =>
      obtain ⟨hm, hvs⟩ := hs.fits h
      exact he.fits h hm hvs
  | call _ hcall ih => exact hcall.fits h ih.1 ih.2

/-- Evaluating a closed term is an entry. -/
theorem Session.eval {m m' : Memory β σ} {vs : List (Value β σ)} {n : Nat} {t : Term β σ} {v : Value β σ}
    (hs : Session cfg allowed m vs) (ht : t.ClosedAmong allowed)
    (hr : Machine.eval cfg n t m = .ok v m') : Session cfg allowed m' (v :: vs) := by
  cases hcode : inHeap (·.reserve (compile cfg.steps t)) m with
  | error e m₁ => cases hcode
  | ok code m₁ =>
      have hrun : run cfg n code [] m₁ = .ok v m' := (run_bind_ok hcode).symm.trans hr
      exact .returned (c := .run code []) hs (.eval ht hcode) (run_bind_ok hrun)

theorem Call.Fits.scoped {c : Call β σ} (hc : c.Fits allowed) : c.Scoped := by
  cases c with
  | run => exact ⟨hc.1.scoped trivial, hc.2.scoped trivial⟩
  | unfold => trivial
  | force | readback => exact Value.Alike.scoped trivial hc
  | apply | applyForced => exact ⟨hc.1.scoped trivial, hc.2.scoped trivial⟩
  | applyRest => exact ⟨hc.1.1.scoped trivial, hc.2.scoped trivial⟩

theorem Sound.scoped {h : Heap β σ} (hh : Sound allowed h) : h.Scoped := by
  intro slot v hv
  have hread := hh.read slot
  rw [hv] at hread
  cases hread with
  | some hv => exact ⟨hv.1.scoped trivial, hv.2⟩

theorem Value.Fits.closed_source {v : Value β σ} (hv : v.Fits allowed) {t : Term β σ}
    (ht : v.source? = some t) : t.Closed := by
  have hrel := Value.Alike.source? hv
  rw [ht] at hrel
  cases hrel with
  | some hrel => exact hrel.closedBelow trivial

/-- Reduction of closed terms gives closed terms. -/
theorem Closing.closed_norm (h : Closing allowed cfg) {flags : Flags} {n : Nat} {t u : Term β σ}
    {w w' : World β σ} (ht : t.ClosedAmong allowed)
    (hr : Reduce.norm ⟨cfg.steps, flags, cfg.env, cfg.interp⟩ n t w = .ok u w') : u.Closed := by
  have hlike := h.like
  have hreduce : Reduce.Setting.Like (scopeTie (Raises allowed cfg)) (scopeLikeness allowed)
      ⟨cfg.steps, flags, cfg.env, cfg.interp⟩ ⟨cfg.steps, flags, cfg.env, cfg.interp⟩
      fun _ => cfg.interp :=
    ⟨rfl, hlike.lookup, fun c _ _ => hlike.unfoldable c trivial, hlike.interp⟩
  have hnorm := (Reduce.alikeAt fair_scope keepsArity_scope hreduce n).norm (closedAmong_iff.mp ht)
  rcases hnorm w w rfl with ⟨e, w₁, he, -⟩ | ⟨r, -, hmatch⟩
  · rw [hr] at he
    cases he
  · rw [hr] at hmatch
    cases hmatch with
    | ok hu _ => exact hu.closedBelow trivial
    | escape he => exact he.elim

/-- If definitions are closed and allowed steps take closed terms to closed terms, then:
* reduction takes closed terms to closed terms;
* evaluating a closed term carries a session on, and the terms that its values stand for and are read back
  to are closed;
* in every configuration that a session goes through, frames are as long as the variables that are looked up
  in them ask for, in the call and in the heap; values that are given are not suspended, and terms closed;
  and if the call breaks off with an issue, then it is one that a step has raised on closed terms, so not one
  of the machine's own;
* where values are put for variables, no index gets less than zero. -/
theorem scope_safety (h : Closing allowed cfg) :
    (∀ flags n t w u w', t.ClosedAmong allowed →
      Reduce.norm ⟨cfg.steps, flags, cfg.env, cfg.interp⟩ n t w = .ok u w' → u.Closed) ∧
    (∀ m vs, Session cfg allowed m vs →
      (∀ n t v m', t.ClosedAmong allowed → eval cfg n t m = .ok v m' → Session cfg allowed m' (v :: vs)) ∧
      (∀ v ∈ vs, ∀ t, v.source? = some t → t.Closed) ∧
      ∀ v ∈ vs, ∀ n t m', readback cfg n v m = .ok t m' → t.Closed) ∧
    (∀ n c m, Reached cfg allowed n c m → c.Scoped ∧ m.heap.Scoped ∧
      (∀ v m', c.perform cfg n m = .ok (.value v) m' → v.isThunk = false) ∧
      (∀ t m', c.perform cfg n m = .ok (.term t) m' → t.Closed) ∧
      ∀ e m', c.perform cfg n m = .error (.issue e) m' → Raises allowed cfg e) ∧
    ∀ vals k (t : Term β σ), Term.mapFree? (Term.instantiateVarChecked? vals) k t =
      Term.mapFree? (Term.instantiateVar? vals) k t := by
  refine ⟨fun flags n t w u w' => h.closed_norm, fun m vs hs => ?_, fun n c m hc => ?_, ?_⟩
  · obtain ⟨hm, hvs⟩ := hs.fits h
    have hall := Value.allFit_iff.mp hvs
    refine ⟨fun n t v m' => hs.eval, fun v hv t => (hall v hv).closed_source, fun v hv n t m' hr => ?_⟩
    have hread := Call.Fits.perform (c := .readback v) h (hall v hv) n
    exact (hread.ok hm (run_bind_ok hr)).1.1
  · obtain ⟨hfits, hm⟩ := hc.fits h
    have hperform := hfits.perform h n
    refine ⟨hfits.scoped, hm.scoped, fun v m' hr => (hperform.ok hm hr).1.2,
      fun t m' hr => (hperform.ok hm hr).1.1, fun e m' hr => ?_⟩
    exact (hperform.error hm hr nofun).2 e rfl
  · exact fun vals k t =>
      Term.mapFree?_congr (fun _ _ hk => Term.instantiateVarChecked?_eq vals hk) k t

/-! ### A closure over a suspended sum -/

theorem closing_adding : Closing (fun _ => True) adding where
  steps _ _ := trivial
  unfoldable c t ht := ⟨(functional_adding.unfoldable c t ht).1, fun _ _ => trivial⟩
  direct _ _ := rfl
  interp s ts w t w' _ _ hr := by
    have hsum : sum? ts = some t := (EStateM.Result.ok.inj hr).1
    unfold sum? at hsum
    split at hsum
    · cases hsum
      exact ⟨trivial, fun _ _ => trivial⟩
    · cases hsum

/-- A function of two arguments that ignores the second one, given a sum for the first one. -/
def capturingSum : Term Unit Unit :=
  .app (.lam 1 (.lam 1 (.app (.const "twice") [.bvar 1])))
    [.app (.const "add") [.lit (.int 20), .lit (.int 1)]]

theorem scope_safety_capturingSum : ∃ v m',
    eval adding 10 capturingSum { world := {} } = .ok v m' ∧ v.source?.isSome = true ∧
      (∀ t, v.source? = some t → t.Closed) ∧
      ∀ n t m'', readback adding n v m' = .ok t m'' → t.Closed := by
  obtain ⟨v, m', hr, hv⟩ : ∃ v m', eval adding 10 capturingSum { world := {} } = .ok v m' ∧
      v.source?.isSome = true := ⟨_, _, rfl, rfl⟩
  have hsafe := (scope_safety closing_adding).2.1
  have hclosed : capturingSum.ClosedAmong fun _ => True :=
    ⟨by simp [capturingSum, Term.Closed, Term.ClosedBelow, Term.ClosedBelowArgs], fun _ _ => trivial⟩
  have hs := (hsafe _ _ (.start {})).1 10 capturingSum v m' hclosed hr
  exact ⟨v, m', hr, hv, (hsafe _ _ hs).2.1 v (List.mem_singleton_self v),
    (hsafe _ _ hs).2.2 v (List.mem_singleton_self v)⟩

end Machine

end TacticEngine
