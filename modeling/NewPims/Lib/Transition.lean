import Mathlib.Data.List.Forall2

/-! Runs of a call-driven component whose calls may fault, and the rules that carry an
invariant from one call to a whole run. -/
namespace NewPims.Transition

universe u

variable {σ κ ε : Type*}

/-- The state after the calls of a list, or the fault that stopped it. -/
def run (step : σ → κ → Except ε σ) : σ → List κ → Except ε σ
  | s, [] => .ok s
  | s, c :: cs =>
    match step s c with
    | .ok t => run step t cs
    | .error f => .error f

/-- Every call made along the run satisfies `P` in the state it is made in. -/
def AllCalls (step : σ → κ → Except ε σ) (P : σ → κ → Prop) : σ → List κ → Prop
  | _, [] => True
  | s, c :: cs => P s c ∧ ∀ t, step s c = .ok t → AllCalls step P t cs

variable {step : σ → κ → Except ε σ}

theorem map_ok {α β : Type*} {x : Except ε α} {f : α → β} {b : β} (h : x.map f = .ok b) :
    ∃ a, x = .ok a ∧ f a = b := by
  cases x with
  | error e => cases h
  | ok a =>
    cases h
    exact ⟨a, rfl, rfl⟩

theorem bind_ok {α β : Type u} {x : Except ε α} {f : α → Except ε β} {b : β} :
    x >>= f = .ok b ↔ ∃ a, x = .ok a ∧ f a = .ok b := by
  cases x with
  | error e =>
    constructor
    · intro h
      cases h
    · rintro ⟨a, h, -⟩
      cases h
  | ok a =>
    constructor
    · exact fun h => ⟨a, rfl, h⟩
    · rintro ⟨c, hc, h⟩
      cases hc
      exact h

theorem exists_ok {α : Type*} {x : Except ε α} (h : x.isOk = true) : ∃ a, x = .ok a := by
  cases x with
  | error e => cases h
  | ok a => exact ⟨a, rfl⟩

@[simp]
theorem run_nil (s : σ) : run step s [] = .ok s := rfl

theorem run_cons_ok {s t : σ} {c : κ} {cs : List κ} :
    run step s (c :: cs) = .ok t ↔ ∃ m, step s c = .ok m ∧ run step m cs = .ok t := by
  cases h : step s c with
  | ok m => simp [run, h]
  | error f => simp [run, h]

/-- A view of the state that follows its own steps runs along. -/
theorem run_map {τ : Type*} {step' : τ → κ → Except ε τ} (view : σ → τ)
    (hstep : ∀ s c t, step s c = .ok t → step' (view s) c = .ok (view t))
    {s t : σ} {cs : List κ} (hrun : run step s cs = .ok t) :
    run step' (view s) cs = .ok (view t) := by
  induction cs generalizing s with
  | nil =>
    cases hrun
    rfl
  | cons c cs ih =>
    obtain ⟨m, hm, ht⟩ := (run_cons_ok).mp hrun
    exact (run_cons_ok).mpr ⟨view m, hstep s c m hm, ih ht⟩

/-- A property that every call preserves holds at the end of every run. -/
theorem run_invariant (Inv : σ → Prop)
    (hstep : ∀ s c t, Inv s → step s c = .ok t → Inv t)
    {s t : σ} {cs : List κ} (hs : Inv s) (hrun : run step s cs = .ok t) : Inv t := by
  induction cs generalizing s with
  | nil =>
    cases hrun
    exact hs
  | cons c cs ih =>
    obtain ⟨m, hm, ht⟩ := (run_cons_ok).mp hrun
    exact ih (hstep s c m hs hm) ht

/-- As `run_invariant`, where a call need only preserve the property if it satisfies `P`. -/
theorem run_invariant_of (Inv : σ → Prop) (P : σ → κ → Prop)
    (hstep : ∀ s c t, Inv s → P s c → step s c = .ok t → Inv t)
    {s t : σ} {cs : List κ} (hs : Inv s) (hcalls : AllCalls step P s cs)
    (hrun : run step s cs = .ok t) : Inv t := by
  induction cs generalizing s with
  | nil =>
    cases hrun
    exact hs
  | cons c cs ih =>
    obtain ⟨m, hm, ht⟩ := (run_cons_ok).mp hrun
    obtain ⟨hP, hrest⟩ := hcalls
    exact ih (hstep s c m hs hP hm) (hrest m hm) ht

/-- Where every call with `P` succeeds and preserves the property, so does a run of such calls. -/
theorem exists_run (Inv : σ → Prop) (P : σ → κ → Prop)
    (hstep : ∀ s c, Inv s → P s c → ∃ t, step s c = .ok t ∧ Inv t)
    {s : σ} {cs : List κ} (hs : Inv s) (hcalls : AllCalls step P s cs) :
    ∃ t, run step s cs = .ok t ∧ Inv t := by
  induction cs generalizing s with
  | nil => exact ⟨s, rfl, hs⟩
  | cons c cs ih =>
    obtain ⟨hP, hrest⟩ := hcalls
    obtain ⟨m, hm, hinv⟩ := hstep s c hs hP
    obtain ⟨t, ht, hend⟩ := ih hinv (hrest m hm)
    exact ⟨t, (run_cons_ok).mpr ⟨m, hm, ht⟩, hend⟩

/-- As `run_invariant_of`, for a property that also depends on the calls made so far. -/
theorem run_history (Inv : List κ → σ → Prop) (P : σ → κ → Prop)
    (hstep : ∀ past s c t, Inv past s → P s c → step s c = .ok t → Inv (past ++ [c]) t)
    {s t : σ} {past cs : List κ} (hs : Inv past s) (hcalls : AllCalls step P s cs)
    (hrun : run step s cs = .ok t) : Inv (past ++ cs) t := by
  induction cs generalizing s past with
  | nil =>
    cases hrun
    rwa [List.append_nil]
  | cons c cs ih =>
    obtain ⟨m, hm, ht⟩ := (run_cons_ok).mp hrun
    obtain ⟨hP, hrest⟩ := hcalls
    have hinv := ih (hstep past s c m hs hP hm) (hrest m hm) ht
    rwa [List.append_assoc] at hinv

theorem run_append {s m t : σ} {cs ds : List κ} (hm : run step s cs = .ok m)
    (ht : run step m ds = .ok t) : run step s (cs ++ ds) = .ok t := by
  induction cs generalizing s with
  | nil =>
    cases hm
    exact ht
  | cons c cs ih =>
    obtain ⟨s', hs', hrest⟩ := (run_cons_ok).mp hm
    exact (run_cons_ok).mpr ⟨s', hs', ih hrest⟩

/-- A component that follows another one up to `R`, with some calls for each of its calls, follows
every run of it. -/
theorem run_sim {τ κ' ε' : Type*} {step' : τ → κ' → Except ε' τ} (R : σ → τ → Prop)
    (L : κ → List κ' → Prop)
    (hstep : ∀ s c t a, R s a → step s c = .ok t →
      ∃ ds b, L c ds ∧ run step' a ds = .ok b ∧ R t b)
    {s t : σ} {a : τ} {cs : List κ} (hs : R s a) (hrun : run step s cs = .ok t) :
    ∃ dss b, List.Forall₂ L cs dss ∧ run step' a dss.flatten = .ok b ∧ R t b := by
  induction cs generalizing s a with
  | nil =>
    cases hrun
    exact ⟨[], a, List.Forall₂.nil, rfl, hs⟩
  | cons c cs ih =>
    obtain ⟨m, hm, ht⟩ := (run_cons_ok).mp hrun
    obtain ⟨ds, b, hL, hb, hR⟩ := hstep s c m a hs hm
    obtain ⟨dss, b', hall, hb', hR'⟩ := ih hR ht
    exact ⟨ds :: dss, b', List.Forall₂.cons hL hall, run_append hb hb', hR'⟩

/-- What the calls of a run show, up to a fault. -/
def trace {γ : Type*} (step : σ → κ → Except ε σ) (out : σ → κ → List γ) : σ → List κ → List γ
  | _, [] => []
  | s, c :: cs =>
    match step s c with
    | .ok t => out s c ++ trace step out t cs
    | .error _ => []

/-- A property of a state and of what the calls so far have shown. -/
theorem run_trace {γ : Type*} {out : σ → κ → List γ} (Inv : List γ → σ → Prop)
    (hstep : ∀ past s c t, Inv past s → step s c = .ok t → Inv (past ++ out s c) t)
    {s t : σ} {past : List γ} {cs : List κ} (hs : Inv past s) (hrun : run step s cs = .ok t) :
    Inv (past ++ trace step out s cs) t := by
  induction cs generalizing s past with
  | nil =>
    cases hrun
    rwa [trace, List.append_nil]
  | cons c cs ih =>
    obtain ⟨m, hm, ht⟩ := (run_cons_ok).mp hrun
    simp only [trace, hm]
    rw [← List.append_assoc]
    exact ih (hstep past s c m hs hm) ht

theorem allCalls_cons {P : σ → κ → Prop} {s t : σ} {c : κ} {cs : List κ} (hP : P s c)
    (hstep : step s c = .ok t) (hrest : AllCalls step P t cs) : AllCalls step P s (c :: cs) := by
  refine ⟨hP, ?_⟩
  intro t' ht'
  cases hstep.symm.trans ht'
  exact hrest

theorem allCalls_append {P : σ → κ → Prop} {s m : σ} {cs ds : List κ} (hcs : AllCalls step P s cs)
    (hm : run step s cs = .ok m) (hds : AllCalls step P m ds) : AllCalls step P s (cs ++ ds) := by
  induction cs generalizing s with
  | nil =>
    cases hm
    exact hds
  | cons c cs ih =>
    obtain ⟨hP, hrest⟩ := hcs
    obtain ⟨s', hs', hm⟩ := (run_cons_ok).mp hm
    exact allCalls_cons hP hs' (ih (hrest s' hs') hm)

theorem allCalls_of_forall {P : σ → κ → Prop} {s : σ} {cs : List κ}
    (h : ∀ c ∈ cs, ∀ t, P t c) : AllCalls step P s cs := by
  induction cs generalizing s with
  | nil => trivial
  | cons c cs ih =>
    exact ⟨h c List.mem_cons_self s, fun t _ => ih fun d hd => h d (List.mem_cons_of_mem _ hd)⟩

theorem allCalls_mono {P Q : σ → κ → Prop} {s : σ} {cs : List κ} (hmono : ∀ s c, P s c → Q s c)
    (h : AllCalls step P s cs) : AllCalls step Q s cs := by
  induction cs generalizing s with
  | nil => trivial
  | cons c cs ih => exact ⟨hmono s c h.1, fun t ht => ih (h.2 t ht)⟩

/-- Where the calls with `P` keep an invariant under which `P` is enough for `Q`. -/
theorem allCalls_of_invariant {Inv : σ → Prop} {P Q : σ → κ → Prop}
    (hstep : ∀ s c t, Inv s → P s c → step s c = .ok t → Inv t)
    (himp : ∀ s c, Inv s → P s c → Q s c) {s : σ} {cs : List κ} (hs : Inv s)
    (h : AllCalls step P s cs) : AllCalls step Q s cs := by
  induction cs generalizing s with
  | nil => trivial
  | cons c cs ih =>
    exact ⟨himp s c hs h.1, fun t ht => ih (hstep s c t hs h.1 ht) (h.2 t ht)⟩

/-- Where an invariant makes two conditions the same, the runs that meet them are the same. -/
theorem allCalls_iff {Inv : σ → Prop} {P Q : σ → κ → Prop}
    (hstep : ∀ s c t, Inv s → step s c = .ok t → Inv t) (hiff : ∀ s c, Inv s → (P s c ↔ Q s c))
    {s : σ} {cs : List κ} (hs : Inv s) : AllCalls step P s cs ↔ AllCalls step Q s cs :=
  ⟨allCalls_of_invariant (fun s c t h _ => hstep s c t h) (fun s c h => (hiff s c h).mp) hs,
    allCalls_of_invariant (fun s c t h _ => hstep s c t h) (fun s c h => (hiff s c h).mpr) hs⟩

instance decidableAllCalls {P : σ → κ → Prop} [∀ s c, Decidable (P s c)] :
    ∀ s cs, Decidable (AllCalls step P s cs)
  | _, [] => .isTrue trivial
  | s, c :: cs =>
    match h : step s c with
    | .ok t =>
      have := decidableAllCalls (P := P) t cs
      decidable_of_iff (P s c ∧ AllCalls step P t cs)
        ⟨fun hcalls => allCalls_cons hcalls.1 h hcalls.2,
          fun hcalls => ⟨hcalls.1, hcalls.2 t h⟩⟩
    | .error e =>
      decidable_of_iff (P s c)
        ⟨fun hP => ⟨hP, fun t ht => absurd (h.symm.trans ht) (by simp)⟩, fun hcalls => hcalls.1⟩

/-- Every state that a run goes through satisfies `Inv`. -/
def AllStates (step : σ → κ → Except ε σ) (Inv : σ → Prop) : σ → List κ → Prop
  | s, [] => Inv s
  | s, c :: cs => Inv s ∧ ∀ t, step s c = .ok t → AllStates step Inv t cs

theorem AllStates.head {Inv : σ → Prop} {s : σ} {cs : List κ} (h : AllStates step Inv s cs) :
    Inv s := by
  cases cs with
  | nil => exact h
  | cons c cs => exact h.1

/-- Where the calls with `Q` that keep a property are exactly those with `P`, the runs that keep it
and make such calls are exactly those whose calls have `P`. The property `Aux` of every state says
which states those are. -/
theorem allStates_calls_iff {Aux Inv : σ → Prop} {P Q : σ → κ → Prop}
    (haux : ∀ s c t, Aux s → step s c = .ok t → Aux t)
    (hstep : ∀ s c t, Aux s → Inv s → step s c = .ok t → (Inv t ∧ Q s c ↔ P s c))
    {s t : σ} {cs : List κ} (hs : Aux s) (hinv : Inv s) (hrun : run step s cs = .ok t) :
    AllStates step Inv s cs ∧ AllCalls step Q s cs ↔ AllCalls step P s cs := by
  induction cs generalizing s with
  | nil => exact iff_of_true ⟨hinv, trivial⟩ trivial
  | cons c cs ih =>
    obtain ⟨m, hm, ht⟩ := (run_cons_ok).mp hrun
    have hkeeps := hstep s c m hs hinv hm
    have hnext := haux s c m hs hm
    constructor
    · rintro ⟨hall, hQ, hcalls⟩
      have hm' := hall.2 m hm
      exact allCalls_cons (hkeeps.mp ⟨hm'.head, hQ⟩) hm
        ((ih hnext hm'.head ht).mp ⟨hm', hcalls m hm⟩)
    · rintro ⟨hP, hrest⟩
      obtain ⟨hkept, hQ⟩ := hkeeps.mpr hP
      obtain ⟨hall, hcalls⟩ := (ih hnext hkept ht).mpr (hrest m hm)
      refine ⟨⟨hinv, fun t' ht' => ?_⟩, allCalls_cons hQ hm hcalls⟩
      cases hm.symm.trans ht'
      exact hall

/-- As `allStates_calls_iff`, with nothing asked of the calls. -/
theorem allStates_iff {Aux Inv : σ → Prop} {P : σ → κ → Prop}
    (haux : ∀ s c t, Aux s → step s c = .ok t → Aux t)
    (hstep : ∀ s c t, Aux s → Inv s → step s c = .ok t → (Inv t ↔ P s c))
    {s t : σ} {cs : List κ} (hs : Aux s) (hinv : Inv s) (hrun : run step s cs = .ok t) :
    AllStates step Inv s cs ↔ AllCalls step P s cs := by
  have htrue : AllCalls step (fun _ _ => True) s cs := allCalls_of_forall fun _ _ _ => trivial
  have hiff := allStates_calls_iff (Q := fun _ _ => True) haux
    (fun s c t hs hinv h => (and_iff_left trivial).trans (hstep s c t hs hinv h)) hs hinv hrun
  exact (and_iff_left htrue).symm.trans hiff

/-- The outcome `x`, a state or a fault, is that of a run from `s`. -/
def Runs (step : σ → κ → Except ε σ) (s : σ) (x : Except ε σ) : Prop :=
  ∃ cs, run step s cs = x

theorem runs_ok (s : σ) : Runs step s (.ok s) := ⟨[], rfl⟩

theorem runs_step (s : σ) (c : κ) : Runs step s (step s c) := by
  refine ⟨[c], ?_⟩
  cases h : step s c with
  | ok t => simp [run, h]
  | error f => simp [run, h]

/-- Outcomes of runs compose along `bind`. -/
theorem runs_bind {s : σ} {x : Except ε σ} {f : σ → Except ε σ} (hx : Runs step s x)
    (hf : ∀ t, x = .ok t → Runs step t (f t)) : Runs step s (x >>= f) := by
  obtain ⟨cs, hcs⟩ := hx
  cases x with
  | error e => exact ⟨cs, hcs⟩
  | ok t =>
    obtain ⟨ds, hds⟩ := hf t rfl
    refine ⟨cs ++ ds, ?_⟩
    change run step s (cs ++ ds) = f t
    induction cs generalizing s with
    | nil =>
      cases hcs
      exact hds
    | cons c cs ih =>
      obtain ⟨m, hm, hrest⟩ := (run_cons_ok).mp hcs
      simp only [List.cons_append, run, hm]
      exact ih hrest

/-- Where an invariant rules out a fault of every step, it rules out that fault of every
run. -/
theorem run_ne_error (Inv : σ → Prop) {f : ε}
    (hstep : ∀ s c t, Inv s → step s c = .ok t → Inv t)
    (hfault : ∀ s c, Inv s → step s c ≠ .error f)
    {s : σ} {cs : List κ} (hs : Inv s) : run step s cs ≠ .error f := by
  induction cs generalizing s with
  | nil => exact nofun
  | cons c cs ih =>
    cases hc : step s c with
    | ok m =>
      simp only [run, hc]
      exact ih (hstep s c m hs hc)
    | error e =>
      simp only [run, hc]
      intro h
      exact hfault s c hs (hc.trans h)

/-- As `run_ne_error`, where a call need only avoid the fault if it satisfies `P`. -/
theorem run_ne_error_of (Inv : σ → Prop) (P : σ → κ → Prop) {f : ε}
    (hstep : ∀ s c t, Inv s → P s c → step s c = .ok t → Inv t)
    (hfault : ∀ s c, Inv s → P s c → step s c ≠ .error f)
    {s : σ} {cs : List κ} (hs : Inv s) (hcalls : AllCalls step P s cs) :
    run step s cs ≠ .error f := by
  induction cs generalizing s with
  | nil =>
    rw [run_nil]
    simp
  | cons c cs ih =>
    obtain ⟨hP, hrest⟩ := hcalls
    cases hc : step s c with
    | ok m =>
      simp only [run, hc]
      exact ih (hstep s c m hs hP hc) (hrest m hc)
    | error e =>
      simp only [run, hc]
      exact fun h => hfault s c hs hP (hc.trans h)

section Faults

variable {α β ι : Type u} {f : ε}

theorem bind_ne_error {x : Except ε α} {g : α → Except ε β} (hx : x ≠ .error f)
    (hg : ∀ a, x = .ok a → g a ≠ .error f) : (x >>= g) ≠ .error f := by
  cases x with
  | error e => exact fun h => hx (congrArg Except.error (Except.error.inj h))
  | ok a => exact hg a rfl

theorem map_ne_error {α β : Type*} {x : Except ε α} {g : α → β} (hx : x ≠ .error f) :
    x.map g ≠ .error f := by
  cases x with
  | error e => exact fun h => hx (congrArg Except.error (Except.error.inj h))
  | ok a => exact nofun

/-- From a state with `P` the step does not end with the fault `f`, and where it ends in a state,
that has `Q`. -/
def Avoids (f : ε) (P : α → Prop) (step : α → Except ε α) (Q : α → Prop) : Prop :=
  ∀ s, P s → step s ≠ .error f ∧ ∀ t, step s = .ok t → Q t

variable {P Q R : α → Prop} {g k : α → Except ε α}

theorem avoids_bind (hg : Avoids f P g Q) (hk : Avoids f Q k R) :
    Avoids f P (fun s => g s >>= k) R := by
  intro s hs
  obtain ⟨hne, hok⟩ := hg s hs
  refine ⟨bind_ne_error hne fun t ht => (hk t (hok t ht)).1, ?_⟩
  intro t ht
  obtain ⟨m, hm, ht⟩ := (bind_ok).mp ht
  exact (hk m (hok m hm)).2 t ht

theorem avoids_foldlM {body : α → ι → Except ε α} {xs : List ι}
    (h : ∀ x ∈ xs, Avoids f P (fun s => body s x) P) : Avoids f P (fun s => xs.foldlM body s) P := by
  induction xs with
  | nil =>
    intro s hs
    refine ⟨nofun, fun t ht => ?_⟩
    cases ht
    exact hs
  | cons x xs ih =>
    have hrest := ih fun y hy => h y (List.mem_cons_of_mem x hy)
    simp only [List.foldlM_cons]
    exact avoids_bind (h x List.mem_cons_self) hrest

end Faults

section Loops

variable {α β γ : Type u}

/-- A traversal relates every element to its result. -/
theorem mapM_forall₂ {f : α → Except ε β} {xs : List α} {ys : List β} (h : xs.mapM f = .ok ys) :
    List.Forall₂ (fun x y => f x = .ok y) xs ys := by
  induction xs generalizing ys with
  | nil =>
    rw [List.mapM_nil] at h
    cases h
    exact List.Forall₂.nil
  | cons x xs ih =>
    rw [List.mapM_cons] at h
    obtain ⟨y, hy, h⟩ := (bind_ok).mp h
    obtain ⟨rest, hrest, h⟩ := (bind_ok).mp h
    cases h
    exact List.Forall₂.cons hy (ih hrest)

/-- A traversal whose steps all succeed. -/
theorem mapM_ok {f : α → Except ε β} {g : α → β} {xs : List α} (h : ∀ x ∈ xs, f x = .ok (g x)) :
    xs.mapM f = .ok (xs.map g) := by
  induction xs with
  | nil => rfl
  | cons x xs ih =>
    have hrest := ih fun y hy => h y (List.mem_cons_of_mem x hy)
    rw [List.mapM_cons, h x List.mem_cons_self, hrest]
    rfl

theorem mapM_length {f : α → Except ε β} {xs : List α} {ys : List β} (h : xs.mapM f = .ok ys) :
    ys.length = xs.length := (mapM_forall₂ h).length_eq.symm

theorem exists_bind {α β : Type u} {x : Except ε α} {f : α → Except ε β} {a : α} (hx : x = .ok a)
    (hf : ∃ b, f a = .ok b) : ∃ b, (x >>= f) = .ok b := by
  obtain ⟨b, hb⟩ := hf
  exact ⟨b, (bind_ok).mpr ⟨a, hx, hb⟩⟩

/-- A traversal succeeds where all its steps do. -/
theorem exists_mapM {f : α → Except ε β} {xs : List α} (h : ∀ x ∈ xs, ∃ y, f x = .ok y) :
    ∃ ys, xs.mapM f = .ok ys := by
  induction xs with
  | nil => exact ⟨[], rfl⟩
  | cons x xs ih =>
    obtain ⟨y, hy⟩ := h x List.mem_cons_self
    obtain ⟨ys, hys⟩ := ih fun z hz => h z (List.mem_cons_of_mem _ hz)
    exact ⟨y :: ys, by rw [List.mapM_cons, hy, hys]; rfl⟩

/-- A loop succeeds exactly if its steps do, where it does not depend on the state whether they do. -/
theorem exists_foldlM_iff {step : β → α → Except ε β} {Good : α → Prop} {xs : List α} {b : β}
    (hstep : ∀ b x, (∃ b', step b x = .ok b') ↔ Good x) :
    (∃ b', xs.foldlM step b = .ok b') ↔ ∀ x ∈ xs, Good x := by
  induction xs generalizing b with
  | nil => exact iff_of_true ⟨b, rfl⟩ fun x hx => absurd hx List.not_mem_nil
  | cons x xs ih =>
    rw [List.foldlM_cons, List.forall_mem_cons, ← hstep b]
    constructor
    · rintro ⟨b', h⟩
      obtain ⟨m, hm, h⟩ := (bind_ok).mp h
      exact ⟨⟨m, hm⟩, ih.mp ⟨b', h⟩⟩
    · rintro ⟨⟨m, hm⟩, hall⟩
      obtain ⟨b', h⟩ := ih.mpr hall
      exact ⟨b', (bind_ok).mpr ⟨m, hm, h⟩⟩

/-- A loop shows what its steps show, and every step is as it must be. -/
theorem foldlM_view {step : β → α → Except ε β} (view : β → List γ) {emit : α → List γ}
    (Good : α → Prop) {xs : List α} {b b' : β}
    (hstep : ∀ b b' x, step b x = .ok b' → view b' = view b ++ emit x ∧ Good x)
    (h : xs.foldlM step b = .ok b') :
    view b' = view b ++ xs.flatMap emit ∧ ∀ x ∈ xs, Good x := by
  induction xs generalizing b with
  | nil =>
    cases h
    exact ⟨(List.append_nil _).symm, fun x hx => absurd hx List.not_mem_nil⟩
  | cons x xs ih =>
    rw [List.foldlM_cons] at h
    obtain ⟨m, hm, h⟩ := (bind_ok).mp h
    obtain ⟨hview, hgood⟩ := hstep b m x hm
    obtain ⟨hrest, hall⟩ := ih h
    refine ⟨by rw [hrest, hview, List.flatMap_cons, List.append_assoc], ?_⟩
    intro y hy
    rcases List.mem_cons.mp hy with rfl | hy
    · exact hgood
    · exact hall y hy

/-- A loop keeps what its steps keep. -/
theorem foldlM_inv_mem {step : β → α → Except ε β} {P : β → Prop} {xs : List α} {b b' : β}
    (hstep : ∀ b b', ∀ x ∈ xs, P b → step b x = .ok b' → P b') (hb : P b)
    (h : xs.foldlM step b = .ok b') : P b' := by
  induction xs generalizing b with
  | nil =>
    cases h
    exact hb
  | cons x xs ih =>
    rw [List.foldlM_cons] at h
    obtain ⟨m, hm, h⟩ := (bind_ok).mp h
    refine ih ?_ (hstep b m x List.mem_cons_self hb hm) h
    exact fun b b' y hy => hstep b b' y (List.mem_cons_of_mem x hy)

theorem foldlM_inv {step : β → α → Except ε β} {P : β → Prop} {xs : List α} {b b' : β}
    (hstep : ∀ b b' x, P b → step b x = .ok b' → P b') (hb : P b)
    (h : xs.foldlM step b = .ok b') : P b' :=
  foldlM_inv_mem (fun b b' x _ => hstep b b' x) hb h

/-- What a loop does before, at and after one of its elements. -/
theorem foldlM_split {step : β → α → Except ε β} {xs : List α} {b b' : β} {x : α} (hx : x ∈ xs)
    (h : xs.foldlM step b = .ok b') : ∃ (ls rs : List α) (c d : β),
      (∀ y ∈ ls, y ∈ xs) ∧ (∀ y ∈ rs, y ∈ xs) ∧ ls.foldlM step b = .ok c ∧
        step c x = .ok d ∧ rs.foldlM step d = .ok b' := by
  obtain ⟨ls, rs, rfl⟩ := List.append_of_mem hx
  rw [List.foldlM_append] at h
  obtain ⟨c, hc, h⟩ := (bind_ok).mp h
  rw [List.foldlM_cons] at h
  obtain ⟨d, hd, h⟩ := (bind_ok).mp h
  refine ⟨ls, rs, c, d, ?_, ?_, hc, hd, h⟩
  · exact fun y hy => List.mem_append_left _ hy
  · exact fun y hy => List.mem_append_right _ (List.mem_cons_of_mem x hy)

/-- A loop whose steps each add an element to what it shows. -/
theorem foldlM_forall₂ {step : β → α → Except ε β} (view : β → List γ) {P : β → Prop}
    {R : α → γ → Prop} {xs : List α} {b b' : β}
    (hstep : ∀ b b' x, P b → step b x = .ok b' →
      P b' ∧ ∃ y, view b' = view b ++ [y] ∧ R x y)
    (hb : P b) (h : xs.foldlM step b = .ok b') :
    ∃ ys, view b' = view b ++ ys ∧ List.Forall₂ R xs ys := by
  induction xs generalizing b with
  | nil =>
    cases h
    exact ⟨[], (List.append_nil _).symm, List.Forall₂.nil⟩
  | cons x xs ih =>
    rw [List.foldlM_cons] at h
    obtain ⟨m, hm, h⟩ := (bind_ok).mp h
    obtain ⟨hP, y, hview, hR⟩ := hstep b m x hb hm
    obtain ⟨ys, hys, hrest⟩ := ih hP h
    exact ⟨y :: ys, by rw [hys, hview, List.append_assoc, List.singleton_append],
      List.Forall₂.cons hR hrest⟩

/-- A loop succeeds where its steps always do. -/
theorem exists_foldlM {step : β → α → Except ε β} {xs : List α}
    (h : ∀ x ∈ xs, ∀ b, ∃ b', step b x = .ok b') (b : β) : ∃ b', xs.foldlM step b = .ok b' := by
  induction xs generalizing b with
  | nil => exact ⟨b, rfl⟩
  | cons x xs ih =>
    obtain ⟨m, hm⟩ := h x List.mem_cons_self b
    obtain ⟨b', hb'⟩ := ih (fun y hy => h y (List.mem_cons_of_mem _ hy)) m
    exact ⟨b', by rw [List.foldlM_cons, hm]; exact hb'⟩

/-- A loop that visits every index once follows another one, with a choice for each index that may
depend on all that came before. -/
theorem foldlM_choices {σ τ : Type u} {ι ε' : Type*} [DecidableEq ι] [Nonempty γ]
    {f : σ → ι → Except ε σ} {g : (ι → γ) → τ → ι → Except ε' τ} (R : σ → τ → Prop)
    (hstep : ∀ s s' t i, R s t → f s i = .ok s' →
      ∃ x t', R s' t' ∧ ∀ choice, choice i = x → g choice t i = .ok t')
    {is : List ι} (hnodup : is.Nodup) {s s' : σ} {t : τ} (hs : R s t)
    (h : is.foldlM f s = .ok s') :
    ∃ (choice : ι → γ) (t' : τ), R s' t' ∧ is.foldlM (g choice) t = .ok t' := by
  have hall : ∃ (choice : ι → γ) (t' : τ), R s' t' ∧
      ∀ choice' : ι → γ, (∀ i ∈ is, choice' i = choice i) →
      is.foldlM (g choice') t = .ok t' := by
    induction is generalizing s t with
    | nil =>
      cases h
      exact ⟨fun _ => Classical.arbitrary γ, t, hs, fun _ _ => rfl⟩
    | cons i is ih =>
      rw [List.foldlM_cons] at h
      obtain ⟨m, hm, hrest⟩ := bind_ok.mp h
      obtain ⟨hi, hnodup⟩ := List.nodup_cons.mp hnodup
      obtain ⟨x, u, hR, hx⟩ := hstep s m t i hs hm
      obtain ⟨choice, t', hR', hchoice⟩ := ih hnodup hR hrest
      refine ⟨Function.update choice i x, t', hR', ?_⟩
      intro choice' hagree
      rw [List.foldlM_cons]
      refine bind_ok.mpr ⟨u, hx choice' ?_, hchoice choice' ?_⟩
      · rw [hagree i List.mem_cons_self, Function.update_self]
      · intro j hj
        have hne : j ≠ i := by
          rintro rfl
          exact hi hj
        rw [hagree j (List.mem_cons_of_mem i hj), Function.update_of_ne hne]
  obtain ⟨choice, t', hR, hchoice⟩ := hall
  exact ⟨choice, t', hR, hchoice choice fun _ _ => rfl⟩

end Loops

end NewPims.Transition
