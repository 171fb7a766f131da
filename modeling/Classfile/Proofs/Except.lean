import Mathlib.Data.List.Forall2

/-! What the parts of a computation gave when the whole of it succeeded, with a state or without. -/
namespace Except

variable {ε α β γ : Type} {x : Except ε α} {a : α} {b : β}

@[simp] theorem pure_eq (a : α) : (pure a : Except ε α) = .ok a := rfl

@[simp] theorem throw_eq (e : ε) : (throw e : Except ε α) = .error e := rfl

@[simp] theorem ok_bind (a : α) (f : α → Except ε β) : ((.ok a : Except ε α) >>= f) = f a := rfl

@[simp] theorem error_bind (e : ε) (f : α → Except ε β) :
    ((.error e : Except ε α) >>= f) = .error e := rfl

theorem bind_eq_ok {f : α → Except ε β} :
    (x >>= f) = .ok b ↔ ∃ a, x = .ok a ∧ f a = .ok b := by
  cases x with
  | ok a => simp
  | error e => simp

theorem bind_eq_error {f : α → Except ε β} {e : ε} :
    (x >>= f) = .error e ↔ x = .error e ∨ ∃ a, x = .ok a ∧ f a = .error e := by
  cases x with
  | ok a => simp
  | error e => simp

theorem exists_eq_ok : (∃ a, x = .ok a) ↔ ∀ e, x ≠ .error e := by
  cases x with
  | ok a => simp
  | error e => simp

theorem map_eq_ok {f : α → β} : f <$> x = .ok b ↔ ∃ a, x = .ok a ∧ f a = b := by
  cases x <;> simp [Functor.map, Except.map]

theorem discard_eq_ok : (discard x : Except ε PUnit) = .ok () ↔ ∃ a, x = .ok a := by
  cases x with
  | ok a => exact ⟨fun _ => ⟨a, rfl⟩, fun _ => rfl⟩
  | error e =>
    constructor
    · intro h
      cases h
    · rintro ⟨a, h⟩
      cases h

theorem discard_eq_error {e : ε} :
    (discard x : Except ε PUnit) = .error e ↔ x = .error e := by
  cases x with
  | ok a => exact iff_of_false nofun nofun
  | error e' =>
    constructor
    · intro h
      cases h
      rfl
    · intro h
      cases h
      rfl

theorem mapM_eq_ok {f : α → Except ε β} {xs : List α} {ys : List β} :
    xs.mapM f = .ok ys ↔ List.Forall₂ (fun x y => f x = .ok y) xs ys := by
  induction xs generalizing ys with
  | nil => cases ys <;> simp
  | cons x xs ih =>
    rw [List.mapM_cons, bind_eq_ok]
    constructor
    · rintro ⟨y, hy, h⟩
      obtain ⟨zs, hzs, h⟩ := bind_eq_ok.mp h
      cases h
      exact .cons hy (ih.mp hzs)
    · intro h
      cases h with
      | cons hy hys =>
        refine ⟨_, hy, bind_eq_ok.mpr ⟨_, ih.mpr hys, rfl⟩⟩

/-- What fails first is what the whole fails with. -/
theorem mapM_eq_error {f : α → Except ε β} {xs : List α} {e : ε} :
    xs.mapM f = .error e ↔ ∃ before x after, xs = before ++ x :: after ∧
      (∀ y ∈ before, ∃ b, f y = .ok b) ∧ f x = .error e := by
  induction xs with
  | nil =>
    refine iff_of_false (fun h => by cases h) ?_
    rintro ⟨before, x, after, h, -⟩
    cases before <;> cases h
  | cons x xs ih =>
    rw [List.mapM_cons]
    cases hx : f x with
    | error e' =>
      rw [error_bind]
      constructor
      · intro h
        cases h
        exact ⟨[], x, xs, rfl, nofun, hx⟩
      · rintro ⟨_ | ⟨y, before⟩, z, after, h, hb, hz⟩
        · cases h
          rw [hx] at hz
          cases hz
          rfl
        · cases h
          obtain ⟨b, hb⟩ := hb x List.mem_cons_self
          rw [hx] at hb
          cases hb
    | ok b =>
      have hrest : (Except.ok b >>= fun b => xs.mapM f >>= fun bs => pure (b :: bs)) = .error e ↔
          xs.mapM f = .error e := by
        rw [ok_bind]
        cases xs.mapM f <;> simp
      rw [hrest, ih]
      constructor
      · rintro ⟨before, z, after, rfl, hb, hz⟩
        exact ⟨x :: before, z, after, rfl, List.forall_mem_cons.mpr ⟨⟨b, hx⟩, hb⟩, hz⟩
      · rintro ⟨_ | ⟨y, before⟩, z, after, h, hb, hz⟩
        · cases h
          rw [hx] at hz
          cases hz
        · cases h
          exact ⟨before, z, after, rfl, (List.forall_mem_cons.mp hb).2, hz⟩

theorem exists_of_mem_mapM {f : α → Except ε β} {xs : List α} {ys : List β} {y : β}
    (h : xs.mapM f = .ok ys) (hy : y ∈ ys) : ∃ x ∈ xs, f x = .ok y := by
  rw [mapM_eq_ok] at h
  induction h with
  | nil => cases hy
  | @cons x z xs ys hx _ ih =>
    rcases List.mem_cons.mp hy with rfl | hy
    · exact ⟨x, List.mem_cons_self, hx⟩
    · obtain ⟨w, hw, he⟩ := ih hy
      exact ⟨w, List.mem_cons_of_mem _ hw, he⟩

theorem exists_mapM {f : α → Except ε β} {xs : List α} (h : ∀ x ∈ xs, ∃ y, f x = .ok y) :
    ∃ ys, xs.mapM f = .ok ys := by
  simp only [mapM_eq_ok]
  induction xs with
  | nil => exact ⟨[], .nil⟩
  | cons x xs ih =>
    obtain ⟨y, hy⟩ := h x List.mem_cons_self
    obtain ⟨ys, hys⟩ := ih fun z hz => h z (List.mem_cons_of_mem _ hz)
    exact ⟨y :: ys, .cons hy hys⟩

theorem exists_of_mapM {f : α → Except ε β} {xs : List α} {ys : List β} {x : α}
    (h : xs.mapM f = .ok ys) (hx : x ∈ xs) : ∃ y, f x = .ok y := by
  rw [mapM_eq_ok] at h
  induction h with
  | nil => cases hx
  | @cons z y xs ys hz _ ih =>
    rcases List.mem_cons.mp hx with rfl | hx
    · exact ⟨y, hz⟩
    · exact ih hx

theorem mapM_length {f : α → Except ε β} {xs : List α} {ys : List β}
    (h : xs.mapM f = .ok ys) : ys.length = xs.length :=
  (mapM_eq_ok.mp h).length_eq.symm

theorem mapM_eq_ok_map {f : α → Except ε β} {g : α → β} {xs : List α}
    (h : ∀ x ∈ xs, f x = .ok (g x)) : xs.mapM f = .ok (xs.map g) := by
  rw [mapM_eq_ok]
  induction xs with
  | nil => exact .nil
  | cons x xs ih => exact .cons (h x (by simp)) (ih fun y hy => h y (by simp [hy]))

theorem mapM_congr {f g : α → Except ε β} {xs : List α} (h : ∀ x ∈ xs, f x = g x) :
    xs.mapM f = xs.mapM g := by
  induction xs with
  | nil => rfl
  | cons x xs ih =>
    rw [List.mapM_cons, List.mapM_cons, h x List.mem_cons_self,
      ih fun y hy => h y (List.mem_cons_of_mem _ hy)]

theorem mapM_append {f : α → Except ε β} {xs xs' : List α} {ys ys' : List β}
    (h : xs.mapM f = .ok ys) (h' : xs'.mapM f = .ok ys') :
    (xs ++ xs').mapM f = .ok (ys ++ ys') := by
  rw [List.mapM_append, h, h']
  rfl

/-- What each element was turned into is turned into something else. -/
theorem mapM_mapM {f : α → Except ε β} {g : β → Except ε γ} {k : α → γ} {xs : List α}
    {ys : List β} (h : xs.mapM f = .ok ys) (hk : ∀ x ∈ xs, ∀ y, f x = .ok y → g y = .ok (k x)) :
    ys.mapM g = .ok (xs.map k) := by
  rw [mapM_eq_ok] at h ⊢
  induction h with
  | nil => exact .nil
  | @cons x y xs ys hx _ ih =>
    exact .cons (hk x List.mem_cons_self y hx) (ih fun z hz => hk z (List.mem_cons_of_mem _ hz))

/-- Pieces of one size take up as much together as there are elements of that size. -/
theorem length_flatten {f : α → Except ε (List β)} {xs : List α} {pieces : List (List β)}
    {size : Nat} (h : xs.mapM f = .ok pieces)
    (hs : ∀ x piece, f x = .ok piece → piece.length = size) :
    pieces.flatten.length = xs.length * size := by
  have hl : pieces.map List.length = List.replicate pieces.length size := by
    refine List.map_eq_replicate_iff.mpr fun piece hp => ?_
    obtain ⟨x, -, hx⟩ := exists_of_mem_mapM h hp
    exact hs x piece hx
  rw [List.length_flatten, hl, List.sum_replicate_nat, mapM_length h]

/-- What every step keeps holds at the end of them all. -/
theorem foldlM_invariant {σ : Type} {f : σ → α → Except ε σ} {P : σ → Prop} {xs : List α}
    {s t : σ} (hs : P s) (hf : ∀ s, P s → ∀ x ∈ xs, ∀ t, f s x = .ok t → P t)
    (h : xs.foldlM f s = .ok t) : P t := by
  induction xs generalizing s with
  | nil =>
    cases h
    exact hs
  | cons x xs ih =>
    rw [List.foldlM_cons] at h
    obtain ⟨u, hu, h⟩ := bind_eq_ok.mp h
    exact ih (hf s hs x List.mem_cons_self u hu)
      (fun v hv y hy => hf v hv y (List.mem_cons_of_mem _ hy)) h

theorem foldlM_eq_self {σ : Type} {f : σ → α → Except ε σ} {xs : List α} {s : σ}
    (h : ∀ x ∈ xs, f s x = .ok s) : xs.foldlM f s = .ok s := by
  induction xs with
  | nil => rfl
  | cons x xs ih =>
    rw [List.foldlM_cons, h x List.mem_cons_self, ok_bind,
      ih fun y hy => h y (List.mem_cons_of_mem _ hy)]

/-- Elements that are put at the end of a list, one by one, end up there in their order. -/
theorem foldlM_collect {σ : Type} {f : σ → α → Except ε σ} {g : List α → σ} {xs ys : List α}
    (h : ∀ x ∈ xs, ∀ ys, f (g ys) x = .ok (g (ys ++ [x]))) :
    xs.foldlM f (g ys) = .ok (g (ys ++ xs)) := by
  induction xs generalizing ys with
  | nil =>
    rw [List.append_nil]
    rfl
  | cons x xs ih =>
    rw [List.foldlM_cons, h x List.mem_cons_self, ok_bind,
      ih fun y hy => h y (List.mem_cons_of_mem _ hy), List.append_assoc, List.singleton_append]

/-- Of the elements that are taken in, one by one, those with a property end up in a list, in their
order. -/
theorem foldlM_filter {σ : Type} {f : σ → α → Except ε σ} {g : σ → List α} {p : α → Bool}
    {xs : List α} {s t : σ} (hf : ∀ {s x t}, f s x = .ok t → g t = g s ++ [x].filter p)
    (h : xs.foldlM f s = .ok t) : g t = g s ++ xs.filter p := by
  induction xs generalizing s with
  | nil =>
    cases h
    exact (List.append_nil _).symm
  | cons x xs ih =>
    rw [List.foldlM_cons] at h
    obtain ⟨u, hu, h⟩ := bind_eq_ok.mp h
    rw [ih h, hf hu, List.append_assoc, ← List.filter_append, List.singleton_append]

theorem forM_eq_ok {f : α → Except ε PUnit} {xs : List α} :
    xs.forM f = .ok () ↔ ∀ x ∈ xs, f x = .ok () := by
  induction xs with
  | nil => simp
  | cons x xs ih =>
    simp only [List.forM_eq_forM, List.forM_cons, List.forall_mem_cons] at ih ⊢
    rw [bind_eq_ok]
    constructor
    · rintro ⟨u, hu, h⟩
      exact ⟨hu, ih.mp h⟩
    · rintro ⟨hu, h⟩
      exact ⟨(), hu, ih.mpr h⟩

/-- What fails first is what the whole fails with. -/
theorem forM_eq_error {f : α → Except ε PUnit} {xs : List α} {e : ε} :
    xs.forM f = .error e ↔ ∃ before x after, xs = before ++ x :: after ∧
      (∀ y ∈ before, f y = .ok ()) ∧ f x = .error e := by
  induction xs with
  | nil => simp
  | cons x xs ih =>
    simp only [List.forM_eq_forM, List.forM_cons] at ih ⊢
    cases hx : f x with
    | error e' =>
      constructor
      · intro h
        cases h
        exact ⟨[], x, xs, rfl, nofun, hx⟩
      · rintro ⟨_ | ⟨y, before⟩, z, after, h, hb, hz⟩
        · cases h
          exact hx.symm.trans hz
        · cases h
          cases hx.symm.trans (hb x List.mem_cons_self)
    | ok u =>
      rw [ok_bind, ih]
      constructor
      · rintro ⟨before, z, after, rfl, hb, hz⟩
        exact ⟨x :: before, z, after, rfl, List.forall_mem_cons.mpr ⟨hx, hb⟩, hz⟩
      · rintro ⟨_ | ⟨y, before⟩, z, after, h, hb, hz⟩
        · cases h
          cases hx.symm.trans hz
        · cases h
          exact ⟨before, z, after, rfl, (List.forall_mem_cons.mp hb).2, hz⟩

end Except

namespace EStateM

variable {ε σ α β : Type} {x : EStateM ε σ α} {a b : α} {s t : σ}

theorem pure_eq_ok : (pure a : EStateM ε σ α) s = .ok b t ↔ a = b ∧ s = t := by
  constructor
  · intro h
    cases h
    exact ⟨rfl, rfl⟩
  · rintro ⟨rfl, rfl⟩
    rfl

theorem bind_eq_ok {f : α → EStateM ε σ β} {b : β} :
    (x >>= f) s = .ok b t ↔ ∃ a mid, x s = .ok a mid ∧ f a mid = .ok b t := by
  change EStateM.bind x f s = .ok b t ↔ _
  rw [EStateM.bind]
  cases x s <;> simp

theorem bind_eq_error {f : α → EStateM ε σ β} {e : ε} : (x >>= f) s = .error e t ↔
    x s = .error e t ∨ ∃ a mid, x s = .ok a mid ∧ f a mid = .error e t := by
  change EStateM.bind x f s = .error e t ↔ _
  rw [EStateM.bind]
  cases x s <;> simp

theorem bind_of_ok {f : α → EStateM ε σ β} (hx : x s = .ok a t) : (x >>= f) s = f a t := by
  change EStateM.bind x f s = _
  rw [EStateM.bind, hx]

theorem bind_of_error {f : α → EStateM ε σ β} {e : ε} (hx : x s = .error e t) :
    (x >>= f) s = .error e t := by
  change EStateM.bind x f s = _
  rw [EStateM.bind, hx]

theorem discard_eq_ok : (discard x : EStateM ε σ PUnit) s = .ok ⟨⟩ t ↔ ∃ a, x s = .ok a t := by
  change EStateM.map (fun _ => PUnit.unit) x s = _ ↔ _
  rw [EStateM.map]
  cases x s <;> simp

theorem discard_eq_error {e : ε} :
    (discard x : EStateM ε σ PUnit) s = .error e t ↔ x s = .error e t := by
  change EStateM.map (fun _ => PUnit.unit) x s = _ ↔ _
  rw [EStateM.map]
  cases x s <;> simp

theorem map_eq_ok {f : α → β} {b : β} : (x >>= fun a => pure (f a)) s = .ok b t ↔
    ∃ a, x s = .ok a t ∧ f a = b := by
  rw [bind_eq_ok]
  constructor
  · rintro ⟨a, mid, hx, h⟩
    obtain ⟨rfl, rfl⟩ := pure_eq_ok.mp h
    exact ⟨a, hx, rfl⟩
  · rintro ⟨a, hx, rfl⟩
    exact ⟨a, t, hx, rfl⟩

/-- The state that a computation leaves, when it succeeds and when it fails. -/
def left (x : EStateM ε σ α) (s : σ) : σ :=
  match x s with
  | .ok _ t => t
  | .error _ t => t

theorem left_of_ok (h : x s = .ok a t) : x.left s = t := by
  rw [left, h]

theorem left_of_error {e : ε} (h : x s = .error e t) : x.left s = t := by
  rw [left, h]

theorem left_discard : (discard x : EStateM ε σ PUnit).left s = x.left s := by
  cases h : x s with
  | ok a t => rw [left_of_ok h, left_of_ok (discard_eq_ok.mpr ⟨a, h⟩)]
  | error e t => rw [left_of_error h, left_of_error (discard_eq_error.mpr h)]

/-- What holds of a state holds of the one that the computation leaves. -/
def Maintains (P : σ → Prop) (x : EStateM ε σ α) : Prop :=
  ∀ ⦃s⦄, P s → P (x.left s)

variable {P : σ → Prop}

theorem maintains_pure (a : α) : Maintains P (pure a : EStateM ε σ α) := fun _ h => h

theorem maintains_throw (e : ε) : Maintains P (throw e : EStateM ε σ α) := fun _ h => h

theorem Maintains.of_ok (hx : Maintains P x) (h : x s = .ok a t) (hs : P s) : P t :=
  left_of_ok h ▸ hx hs

theorem Maintains.of_error {e : ε} (hx : Maintains P x) (h : x s = .error e t) (hs : P s) : P t :=
  left_of_error h ▸ hx hs

theorem Maintains.bind {f : α → EStateM ε σ β} (hx : Maintains P x)
    (hf : ∀ a, Maintains P (f a)) : Maintains P (x >>= f) := by
  intro s hs
  cases h : (x >>= f) s with
  | ok b t =>
    obtain ⟨a, mid, ha, hb⟩ := bind_eq_ok.mp h
    rw [left_of_ok h]
    exact (hf a).of_ok hb (hx.of_ok ha hs)
  | error e t =>
    rw [left_of_error h]
    rcases bind_eq_error.mp h with ha | ⟨a, mid, ha, hb⟩
    · exact hx.of_error ha hs
    · exact (hf a).of_error hb (hx.of_ok ha hs)

theorem Maintains.discard (hx : Maintains P x) : Maintains P (Functor.discard x) := by
  intro s hs
  rw [left_discard]
  exact hx hs

end EStateM
