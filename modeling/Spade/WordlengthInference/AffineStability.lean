import Mathlib.Data.Option.Basic
import Spade.Lib.FirstWriter
import Spade.Lib.StateExcept
import Spade.WordlengthInference.Affine

/-!
# Stability of affine arithmetic

What the affine analysis of an equation keeps when its noise terms get other numbers, and when
further ranges become known.

* **Numbering** (`evaluateAa_parallel`): with later numbers for the generated noise, the analysis
  gives the same form up to these numbers, or panics again.
* **Growth** (`evaluateAa_extends`, `evaluateAa_panics`): a form stays the form of its equation
  when ranges are added to the known ones, and a panic stays a panic.
-/

namespace Spade.WordlengthInference

open FirstWriter (Extends)
open Spade.Lib.StateExcept

/-! ### Numbering of noise -/

/-- The noise terms with numbers raised by `k`. -/
def renumber (k : ℕ) : AffineVar ↪ AffineVar where
  toFun
    | .var v => .var v
    | .gen id => .gen (id + k)
    | .const => .const
  inj' := by
    intro i j h
    cases i with
    | var v =>
      cases j with
      | var w => exact h
      | gen id => nomatch h
      | const => nomatch h
    | gen id =>
      cases j with
      | var w => nomatch h
      | gen id' =>
        have hid : id + k = id' + k := AffineVar.gen.inj h
        rw [Nat.add_right_cancel hid]
      | const => nomatch h
    | const =>
      cases j with
      | var w => nomatch h
      | gen id => nomatch h
      | const => rfl

@[simp] theorem renumber_var (k : ℕ) (v : Var) : renumber k (.var v) = .var v := rfl

@[simp] theorem renumber_gen (k id : ℕ) : renumber k (.gen id) = .gen (id + k) := rfl

@[simp] theorem renumber_const (k : ℕ) : renumber k .const = .const := rfl

theorem renumber_eq_const {k : ℕ} {i : AffineVar} : renumber k i = .const ↔ i = .const := by
  rw [← renumber_const k, EmbeddingLike.apply_eq_iff_eq]
  rfl

/-- The same form with the numbers of its noise terms raised by `k`. -/
structure Renumbered (k : ℕ) (f g : AAForm) : Prop where
  vars : g.vars = f.vars.map (renumber k)
  coeff : ∀ i, g.coeff (renumber k i) = f.coeff i

namespace Renumbered

variable {k : ℕ} {f g f' g' : AAForm}

theorem mid (h : Renumbered k f g) : g.mid = f.mid := h.coeff .const

theorem rad (h : Renumbered k f g) : g.rad = f.rad := by
  unfold AAForm.rad
  rw [h.vars, Finset.sum_map]
  apply Finset.sum_congr rfl
  intro i _
  simp only [renumber_eq_const, h.coeff]

theorem ends (h : Renumbered k f g) : g.ends = f.ends := by
  unfold AAForm.ends
  rw [h.mid, h.rad]

theorem ofRange (k : ℕ) (i : AffineVar) (r : Range) :
    Renumbered k (.ofRange i r) (.ofRange (renumber k i) r) where
  vars := by simp [AAForm.ofRange]
  coeff := by
    intro j
    simp [AAForm.ofRange, renumber_eq_const]

theorem add (h : Renumbered k f g) (h' : Renumbered k f' g') :
    Renumbered k (f.add f') (g.add g') where
  vars := by
    change g.vars ∪ g'.vars = (f.vars ∪ f'.vars).map _
    rw [Finset.map_union, h.vars, h'.vars]
  coeff := by
    intro i
    change g.coeff _ + g'.coeff _ = f.coeff i + f'.coeff i
    rw [h.coeff, h'.coeff]

theorem neg (h : Renumbered k f g) : Renumbered k f.neg g.neg where
  vars := h.vars
  coeff := by
    intro i
    change -g.coeff _ = -f.coeff i
    rw [h.coeff]

theorem combine (h : Renumbered k f g) (h' : Renumbered k f' g')
    (alpha beta gamma delta : ℚ) (d : AffineVar) :
    Renumbered k (f.combine f' alpha beta gamma delta d)
      (g.combine g' alpha beta gamma delta (renumber k d)) where
  vars := by
    change insert _ (g.vars ∪ g'.vars) = (insert d (f.vars ∪ f'.vars)).map _
    rw [Finset.map_insert, Finset.map_union, h.vars, h'.vars]
  coeff := by
    intro i
    have hmem : renumber k i ∈ g.vars ∪ g'.vars ↔ i ∈ f.vars ∪ f'.vars := by
      rw [h.vars, h'.vars, ← Finset.map_union, Finset.mem_map']
    simp only [AAForm.combine, EmbeddingLike.apply_eq_iff_eq, hmem, h.coeff, h'.coeff,
      renumber_eq_const]

end Renumbered

/-- Both runs panic, or they end with related results and numbers that differ by `k`. -/
def Parallel {α β : Type} (k : ℕ) (rel : α → β → Prop) :
    Except Failure (α × ℕ) → Except Failure (β × ℕ) → Prop
  | .error _, .error _ => True
  | .ok (a, n), .ok (b, m) => rel a b ∧ m = n + k
  | _, _ => False

/-- Runs are parallel when the second one starts with a number higher by `k`. -/
def ParallelFrom {α β : Type} (k : ℕ) (rel : α → β → Prop) (x : Tracked α) (y : Tracked β) : Prop :=
  ∀ n, Parallel k rel (x n) (y (n + k))

namespace ParallelFrom

variable {α β γ δ : Type} {k : ℕ} {rel : α → β → Prop} {rel' : γ → δ → Prop}

theorem pure {a : α} {b : β} (h : rel a b) :
    ParallelFrom k rel (Pure.pure a : Tracked α) (Pure.pure b : Tracked β) := by
  intro n
  exact ⟨h, rfl⟩

theorem bind {x : Tracked α} {y : Tracked β} {f : α → Tracked γ} {g : β → Tracked δ}
    (hx : ParallelFrom k rel x y) (hf : ∀ a b, rel a b → ParallelFrom k rel' (f a) (g b)) :
    ParallelFrom k rel' (x >>= f) (y >>= g) := by
  intro n
  have h := hx n
  change Parallel k rel' (x n >>= fun p => f p.1 p.2) (y (n + k) >>= fun p => g p.1 p.2)
  revert h
  generalize x n = r
  generalize y (n + k) = s
  intro h
  match r, s, h with
  | .error _, .error _, _ => exact trivial
  | .ok (a, m), .ok (b, _), ⟨hab, rfl⟩ => exact hf a b hab m

theorem newVar (k : ℕ) :
    ParallelFrom k (fun i j => j = renumber k i) AAForm.newVar AAForm.newVar := by
  intro n
  refine ⟨rfl, ?_⟩
  omega

theorem fromRange (k : ℕ) (r : Range) :
    ParallelFrom k (Renumbered k) (AAForm.fromRange r) (AAForm.fromRange r) := by
  apply (newVar k).bind
  rintro i _ rfl
  exact pure (Renumbered.ofRange k i r)

variable {f g f' g' : AAForm}

theorem bitManip (h : Renumbered k f g) :
    ParallelFrom k (Renumbered k) f.bitManip g.bitManip := by
  unfold AAForm.bitManip
  rw [h.ends]
  cases f.ends.bitManip with
  | none =>
    intro n
    exact trivial
  | some bits => exact fromRange k bits

theorem mul (h : Renumbered k f g) (h' : Renumbered k f' g') :
    ParallelFrom k (Renumbered k) (f.mul f') (g.mul g') := by
  unfold AAForm.mul
  rw [h.mid, h'.mid, h.rad, h'.rad]
  apply (newVar k).bind
  rintro d _ rfl
  exact pure (h.combine h' _ _ _ _ d)

theorem union (h : Renumbered k f g) (h' : Renumbered k f' g') :
    ParallelFrom k (Renumbered k) (f.union f') (g.union g') := by
  unfold AAForm.union
  rw [h.ends, h'.ends]
  exact fromRange k _

theorem withForm {x y : Tracked (Option AAForm)} {op : AAForm → Tracked AAForm}
    (hx : ParallelFrom k (Option.Rel (Renumbered k)) x y)
    (hop : ∀ f g, Renumbered k f g → ParallelFrom k (Renumbered k) (op f) (op g)) :
    ParallelFrom k (Option.Rel (Renumbered k)) (withForm x op) (withForm y op) := by
  apply hx.bind
  rintro _ _ (hab | _)
  · apply (hop _ _ hab).bind
    intro f g hfg
    exact pure (.some hfg)
  · exact pure .none

theorem withForms {x y x' y' : Tracked (Option AAForm)} {op : AAForm → AAForm → Tracked AAForm}
    (hx : ParallelFrom k (Option.Rel (Renumbered k)) x y)
    (hx' : ParallelFrom k (Option.Rel (Renumbered k)) x' y')
    (hop : ∀ f g f' g', Renumbered k f g → Renumbered k f' g' →
      ParallelFrom k (Renumbered k) (op f f') (op g g')) :
    ParallelFrom k (Option.Rel (Renumbered k)) (withForms x x' op) (withForms y y' op) := by
  apply hx.bind
  intro a b hab
  apply hx'.bind
  intro a' b' hab'
  match a, b, hab, a', b', hab' with
  | _, _, .some hab, _, _, .some hab' =>
    apply (hop _ _ _ _ hab hab').bind
    intro f g hfg
    exact pure (.some hfg)
  | _, _, .some _, _, _, .none => exact pure .none
  | _, _, .none, _, _, .some _ => exact pure .none
  | _, _, .none, _, _, .none => exact pure .none

end ParallelFrom

/-- The numbers of the generated noise do not matter. -/
theorem evaluateAa_parallel (known : Known) (k : ℕ) (eq : Equation) :
    ParallelFrom k (Option.Rel (Renumbered k)) (evaluateAa known eq) (evaluateAa known eq) := by
  induction eq with
  | v var =>
    apply ParallelFrom.pure
    cases known.lookup var with
    | none => exact .none
    | some r => exact .some (.ofRange k (.var var) r)
  | constant r =>
    apply (ParallelFrom.fromRange k r).bind
    intro f g hfg
    exact ParallelFrom.pure (.some hfg)
  | add a b iha ihb =>
    apply iha.withForms ihb
    intro f g f' g' h h'
    exact ParallelFrom.pure (h.add h')
  | sub a b iha ihb =>
    apply iha.withForms ihb
    intro f g f' g' h h'
    exact ParallelFrom.pure (h.add h'.neg)
  | mul a b iha ihb =>
    apply iha.withForms ihb
    intro f g f' g' h h'
    exact ParallelFrom.mul h h'
  | bitManpi a ih =>
    apply ih.withForm
    intro f g h
    exact ParallelFrom.bitManip h
  | neg a ih =>
    apply ih.withForm
    intro f g h
    exact ParallelFrom.pure h.neg
  | bitManipMax a b iha ihb =>
    apply iha.withForms ihb
    intro f g f' g' h h'
    apply (ParallelFrom.bitManip h').bind
    intro bits' bits₁' hbits'
    apply (ParallelFrom.bitManip h).bind
    intro bits bits₁ hbits
    exact ParallelFrom.union hbits hbits'
  | union a b iha ihb =>
    apply iha.withForms ihb
    intro f g f' g' h h'
    exact ParallelFrom.union h h'

/-! ### Growth of the known ranges -/

/-- A run from the number `n` panics. -/
def Panics {α : Type} (x : Tracked α) (n : ℕ) : Prop := ∃ e, x n = .error e

theorem bind_panics {α β : Type} {x : Tracked α} {f : α → Tracked β} {n : ℕ} :
    Panics (x >>= f) n ↔ Panics x n ∨ ∃ a m, Ends x n a m ∧ Panics (f a) m := by
  change (∃ e, (x n >>= fun p => f p.1 p.2) = .error e) ↔ _
  unfold Panics Ends
  cases x n with
  | error e => exact ⟨fun _ => .inl ⟨e, rfl⟩, fun _ => ⟨e, rfl⟩⟩
  | ok p =>
    constructor
    · intro h
      exact .inr ⟨p.1, p.2, rfl, h⟩
    · rintro (⟨e, he⟩ | ⟨a, m, ham, h⟩)
      · cases he
      · obtain rfl := Except.ok.inj ham
        exact h

theorem bind_of_ends {α β : Type} {x : Tracked α} {f : α → Tracked β} {n m : ℕ} {a : α}
    (h : Ends x n a m) : (x >>= f) n = f a m := by
  change (x n >>= fun p => f p.1 p.2) = _
  rw [h]
  rfl

theorem panics_of_panics {known : Known} {eq : Equation} {n : ℕ}
    (h : Panics (evaluateAa known eq) n) (m : ℕ) : Panics (evaluateAa known eq) m := by
  obtain ⟨e, he⟩ := h
  -- The lower one of the two numbers is raised to the other one.
  rcases le_total n m with hle | hle
  · have hparallel := evaluateAa_parallel known (m - n) eq n
    rw [he, Nat.add_sub_cancel' hle] at hparallel
    cases hm : evaluateAa known eq m with
    | error e' => exact ⟨e', hm⟩
    | ok p =>
      rw [hm] at hparallel
      exact hparallel.elim
  · have hparallel := evaluateAa_parallel known (n - m) eq m
    rw [Nat.add_sub_cancel' hle, he] at hparallel
    cases hm : evaluateAa known eq m with
    | error e' => exact ⟨e', hm⟩
    | ok p =>
      rw [hm] at hparallel
      exact hparallel.elim

theorem withForm_ends {x : Tracked (Option AAForm)} {op : AAForm → Tracked AAForm} {f : AAForm}
    {n m : ℕ} : Ends (withForm x op) n (some f) m ↔
      ∃ a n₁, Ends x n (some a) n₁ ∧ Ends (op a) n₁ f m := by
  constructor
  · intro h
    obtain ⟨a, n₁, hx, h⟩ := bind_ends h
    cases a with
    | none => cases (pure_ends h).1
    | some a =>
      obtain ⟨g, n₂, hop, h⟩ := bind_ends h
      obtain ⟨hf, rfl⟩ := pure_ends h
      exact ⟨a, n₁, hx, Option.some.inj hf ▸ hop⟩
  · rintro ⟨a, n₁, hx, hop⟩
    exact (bind_of_ends hx).trans (bind_of_ends hop)

theorem withForms_ends {x y : Tracked (Option AAForm)} {op : AAForm → AAForm → Tracked AAForm}
    {f : AAForm} {n m : ℕ} : Ends (withForms x y op) n (some f) m ↔
      ∃ a n₁ b n₂, Ends x n (some a) n₁ ∧ Ends y n₁ (some b) n₂ ∧ Ends (op a b) n₂ f m := by
  constructor
  · intro h
    obtain ⟨a, n₁, hx, h⟩ := bind_ends h
    obtain ⟨b, n₂, hy, h⟩ := bind_ends h
    cases a with
    | none => cases (pure_ends h).1
    | some a =>
      cases b with
      | none => cases (pure_ends h).1
      | some b =>
        obtain ⟨g, n₃, hop, h⟩ := bind_ends h
        obtain ⟨hf, rfl⟩ := pure_ends h
        exact ⟨a, n₁, b, n₂, hx, hy, Option.some.inj hf ▸ hop⟩
  · rintro ⟨a, n₁, b, n₂, hx, hy, hop⟩
    exact (bind_of_ends hx).trans ((bind_of_ends hy).trans (bind_of_ends hop))

theorem withForm_panics {x : Tracked (Option AAForm)} {op : AAForm → Tracked AAForm} {n : ℕ} :
    Panics (withForm x op) n ↔
      Panics x n ∨ ∃ a n₁, Ends x n (some a) n₁ ∧ Panics (op a) n₁ := by
  unfold withForm
  rw [bind_panics]
  apply or_congr_right
  constructor
  · rintro ⟨a, n₁, hx, h⟩
    cases a with
    | none =>
      obtain ⟨e, he⟩ := h
      nomatch he
    | some a =>
      rcases bind_panics.mp h with hop | ⟨_, _, -, _, he⟩
      · exact ⟨a, n₁, hx, hop⟩
      · nomatch he
  · rintro ⟨a, n₁, hx, hop⟩
    exact ⟨some a, n₁, hx, bind_panics.mpr (.inl hop)⟩

theorem withForms_panics {x y : Tracked (Option AAForm)} {op : AAForm → AAForm → Tracked AAForm}
    {n : ℕ} : Panics (withForms x y op) n ↔
      Panics x n ∨ (∃ a n₁, Ends x n a n₁ ∧ Panics y n₁) ∨
        ∃ a n₁ b n₂, Ends x n (some a) n₁ ∧ Ends y n₁ (some b) n₂ ∧ Panics (op a b) n₂ := by
  unfold withForms
  rw [bind_panics]
  apply or_congr_right
  constructor
  · rintro ⟨a, n₁, hx, h⟩
    rcases bind_panics.mp h with hy | ⟨b, n₂, hy, h⟩
    · exact .inl ⟨a, n₁, hx, hy⟩
    · match a, b, h with
      | none, none, ⟨_, he⟩ => nomatch he
      | none, some _, ⟨_, he⟩ => nomatch he
      | some _, none, ⟨_, he⟩ => nomatch he
      | some a, some b, h =>
        rcases bind_panics.mp h with hop | ⟨_, _, -, _, he⟩
        · exact .inr ⟨a, n₁, b, n₂, hx, hy, hop⟩
        · nomatch he
  · rintro (⟨a, n₁, hx, hy⟩ | ⟨a, n₁, b, n₂, hx, hy, hop⟩)
    · exact ⟨a, n₁, hx, bind_panics.mpr (.inl hy)⟩
    · exact ⟨some a, n₁, hx, bind_panics.mpr (.inr ⟨some b, n₂, hy, bind_panics.mpr (.inl hop)⟩)⟩

/-- All variables of an equation have a range. -/
def Covers (known : Known) : Equation → Prop
  | .v var => ∃ r, known.lookup var = some r
  | .constant _ => True
  | .bitManpi a | .neg a => Covers known a
  | .add a b | .sub a b | .mul a b | .bitManipMax a b | .union a b =>
    Covers known a ∧ Covers known b

section Growth

variable {known known' : Known}

theorem covers_of_evaluateIa {body : Equation} {r : Range} (h : evaluateIa known body = some r) :
    Covers known body := by
  induction body generalizing r with
  | v var => exact ⟨r, h⟩
  | constant range => exact trivial
  | add a b iha ihb | sub a b iha ihb | mul a b iha ihb | union a b iha ihb =>
    obtain ⟨ra, rb, ha, hb, -⟩ := Option.map₂_eq_some_iff.mp h
    exact ⟨iha ha, ihb hb⟩
  | bitManpi a ih =>
    obtain ⟨ra, ha, -⟩ := Option.bind_eq_some_iff.mp h
    exact ih ha
  | neg a ih =>
    obtain ⟨ra, ha, -⟩ := Option.map_eq_some_iff.mp h
    exact ih ha
  | bitManipMax a b iha ihb =>
    obtain ⟨_, _, ha, hb, -⟩ := Option.map₂_eq_some_iff.mp h
    obtain ⟨ra, ha, -⟩ := Option.bind_eq_some_iff.mp ha
    obtain ⟨rb, hb, -⟩ := Option.bind_eq_some_iff.mp hb
    exact ⟨iha ha, ihb hb⟩

theorem covers_of_evaluateAa {body : Equation} {n m : ℕ} {f : AAForm}
    (h : Ends (evaluateAa known body) n (some f) m) : Covers known body := by
  induction body generalizing n m f with
  | v var =>
    obtain ⟨r, hr, -⟩ := Option.map_eq_some_iff.mp (pure_ends h).1.symm
    exact ⟨r, hr⟩
  | constant range => exact trivial
  | add a b iha ihb | sub a b iha ihb | mul a b iha ihb | bitManipMax a b iha ihb
  | union a b iha ihb =>
    obtain ⟨fa, n₁, fb, n₂, ha, hb, -⟩ := withForms_ends.mp h
    exact ⟨iha ha, ihb hb⟩
  | bitManpi a ih | neg a ih =>
    obtain ⟨fa, n₁, ha, -⟩ := withForm_ends.mp h
    exact ih ha

theorem evaluateIa_of_covers (hext : Extends known known') {body : Equation}
    (h : Covers known body) : evaluateIa known' body = evaluateIa known body := by
  induction body with
  | v var =>
    obtain ⟨r, hr⟩ := h
    exact (hext var r hr).trans hr.symm
  | constant range => rfl
  | add a b iha ihb | sub a b iha ihb | mul a b iha ihb | bitManipMax a b iha ihb
  | union a b iha ihb => simp only [evaluateIa, iha h.1, ihb h.2]
  | bitManpi a ih | neg a ih => simp only [evaluateIa, ih h]

theorem evaluateAa_of_covers (hext : Extends known known') {body : Equation}
    (h : Covers known body) : evaluateAa known' body = evaluateAa known body := by
  induction body with
  | v var =>
    obtain ⟨r, hr⟩ := h
    simp only [evaluateAa, hr, hext var r hr]
  | constant range => rfl
  | add a b iha ihb | sub a b iha ihb | mul a b iha ihb | bitManipMax a b iha ihb
  | union a b iha ihb => simp only [evaluateAa, iha h.1, ihb h.2]
  | bitManpi a ih | neg a ih => simp only [evaluateAa, ih h]

theorem evaluateAa_extends (hext : Extends known known') {body : Equation} {n m : ℕ} {f : AAForm}
    (h : Ends (evaluateAa known body) n (some f) m) :
    Ends (evaluateAa known' body) n (some f) m := by
  unfold Ends
  rw [evaluateAa_of_covers hext (covers_of_evaluateAa h)]
  exact h

theorem evaluateAa_panics (hext : Extends known known') (body : Equation) :
    ∀ {n : ℕ}, Panics (evaluateAa known body) n → ∀ m, Panics (evaluateAa known' body) m := by
  have hboth {a b : Equation} {op : AAForm → AAForm → Tracked AAForm}
      (ha : ∀ {n}, Panics (evaluateAa known a) n → ∀ m, Panics (evaluateAa known' a) m)
      (hb : ∀ {n}, Panics (evaluateAa known b) n → ∀ m, Panics (evaluateAa known' b) m)
      (hself : ∀ {n}, Panics (withForms (evaluateAa known' a) (evaluateAa known' b) op) n →
        ∀ m, Panics (withForms (evaluateAa known' a) (evaluateAa known' b) op) m)
      {n : ℕ} (h : Panics (withForms (evaluateAa known a) (evaluateAa known b) op) n) (m : ℕ) :
      Panics (withForms (evaluateAa known' a) (evaluateAa known' b) op) m := by
    rcases withForms_panics.mp h with ha' | ⟨f, n₁, -, hb'⟩ | ⟨f, n₁, g, n₂, hf, hg, hop⟩
    · exact withForms_panics.mpr (.inl (ha ha' m))
    · -- The first operand may get a form with further ranges, and so other numbers after it.
      cases hm : evaluateAa known' a m with
      | error e => exact withForms_panics.mpr (.inl ⟨e, hm⟩)
      | ok p => exact withForms_panics.mpr (.inr (.inl ⟨p.1, p.2, hm, hb hb' p.2⟩))
    · exact hself (withForms_panics.mpr (.inr (.inr
        ⟨f, n₁, g, n₂, evaluateAa_extends hext hf, evaluateAa_extends hext hg, hop⟩))) m
  have hone {a : Equation} {op : AAForm → Tracked AAForm}
      (ha : ∀ {n}, Panics (evaluateAa known a) n → ∀ m, Panics (evaluateAa known' a) m)
      (hself : ∀ {n}, Panics (withForm (evaluateAa known' a) op) n →
        ∀ m, Panics (withForm (evaluateAa known' a) op) m)
      {n : ℕ} (h : Panics (withForm (evaluateAa known a) op) n) (m : ℕ) :
      Panics (withForm (evaluateAa known' a) op) m := by
    rcases withForm_panics.mp h with ha' | ⟨f, n₁, hf, hop⟩
    · exact withForm_panics.mpr (.inl (ha ha' m))
    · exact hself (withForm_panics.mpr (.inr ⟨f, n₁, evaluateAa_extends hext hf, hop⟩)) m
  induction body with
  | v var =>
    rintro n ⟨_, he⟩
    nomatch he
  | constant r =>
    rintro n ⟨_, he⟩
    nomatch he
  | add a b iha ihb => exact hboth iha ihb (@panics_of_panics known' (.add a b))
  | sub a b iha ihb => exact hboth iha ihb (@panics_of_panics known' (.sub a b))
  | mul a b iha ihb => exact hboth iha ihb (@panics_of_panics known' (.mul a b))
  | bitManpi a ih => exact hone ih (@panics_of_panics known' (.bitManpi a))
  | neg a ih => exact hone ih (@panics_of_panics known' (.neg a))
  | bitManipMax a b iha ihb => exact hboth iha ihb (@panics_of_panics known' (.bitManipMax a b))
  | union a b iha ihb => exact hboth iha ihb (@panics_of_panics known' (.union a b))

end Growth

end Spade.WordlengthInference
