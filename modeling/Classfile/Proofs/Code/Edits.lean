import Classfile.Proofs.Code.Sequence

/-!
Runs of edits. An edit that is refused leaves the sequence as it was. Slots only grow older: a slot
that is given up gets the next generation, and as long as the generations do not run out, a handle
that has died stays dead.
-/
namespace Classfile.InstructionSeq

variable {s t : InstructionSeq} {e : Edit} {edits more : List Edit} {h : Handle}
  {i : Instruction Handle} {n k : Nat} {slot : HandleSlot}

/-- What an edit answers. -/
inductive Answer
  | handle (h : Handle)
  | instruction (i : Instruction Handle)
  | hasTarget (found : Bool)
  | count (redirected : Nat)

/-- An edit, with its answer. -/
def perform (s : InstructionSeq) : Edit → Except Fault (Answer × InstructionSeq)
  | .append i => Prod.map .handle id <$> s.append i
  | .insertBefore h i => Prod.map .handle id <$> s.insertBefore h i
  | .insertAfter h i => Prod.map .handle id <$> s.insertAfter h i
  | .remove h => Prod.map .instruction id <$> s.remove h
  | .replace h i => Prod.map .instruction id <$> s.replace h i
  | .setTarget h target => Prod.map .hasTarget id <$> s.setTarget h target
  | .redirect old new => Prod.map .count id <$> s.redirect old new

theorem edit_eq_perform : s.edit e = (·.2) <$> s.perform e := by
  cases e <;> simp only [edit, perform, Functor.map_map, Prod.map_snd, id]

/-- The sequence after an edit that may have been refused. -/
def after (s : InstructionSeq) (e : Edit) : InstructionSeq :=
  match s.edit e with
  | .ok t => t
  | .error _ => s

def run (s : InstructionSeq) (edits : List Edit) : InstructionSeq := edits.foldl after s

/-- How many instructions an edit takes out. -/
def Edit.cost : Edit → Nat
  | remove _ => 1
  | _ => 0

/-- How many instructions the edits take out that are not refused. -/
def removals (s : InstructionSeq) : List Edit → Nat
  | [] => 0
  | e :: edits =>
    match s.edit e with
    | .ok t => e.cost + t.removals edits
    | .error _ => s.removals edits

theorem after_of_ok (h : s.edit e = .ok t) : s.after e = t := by
  rw [after, h]

theorem after_of_error {fault : Fault} (h : s.edit e = .error fault) : s.after e = s := by
  rw [after, h]

theorem run_cons : s.run (e :: edits) = (s.after e).run edits := rfl

theorem run_append : s.run (edits ++ more) = (s.run edits).run more := List.foldl_append

theorem removals_append :
    s.removals (edits ++ more) = s.removals edits + (s.run edits).removals more := by
  induction edits generalizing s with
  | nil => rw [List.nil_append, removals, Nat.zero_add, run, List.foldl_nil]
  | cons e edits ih =>
    rw [List.cons_append, removals, removals, run_cons]
    cases he : s.edit e with
    | ok t => simp only [after_of_ok he, ih, Nat.add_assoc]
    | error fault => simp only [after_of_error he, ih]

/-- What holds of a sequence, for a number of removals that were made before, holds after a run if
every edit keeps it. -/
theorem run_invariant {P : InstructionSeq → Nat → Prop} {bound : Nat}
    (hstep : ∀ s t n e, P s n → s.edit e = .ok t → n + e.cost < bound → P t (n + e.cost))
    (h : P s n) (hb : n + s.removals edits < bound) :
    P (s.run edits) (n + s.removals edits) := by
  induction edits generalizing s n with
  | nil => exact h
  | cons e edits ih =>
    rw [removals] at hb
    rw [run_cons, removals]
    cases he : s.edit e with
    | error fault =>
      rw [he] at hb
      rw [after_of_error he]
      exact ih h hb
    | ok t =>
      simp only [he, ← Nat.add_assoc] at hb ⊢
      rw [after_of_ok he]
      exact ih (hstep s t n e h he (by omega)) hb

/-! ### What a single edit does -/

/-- The slots after an instruction has gone. -/
def retired (slots : Array HandleSlot) (h : Handle) : Array HandleSlot :=
  slots.setIfInBounds h.index.toNat ⟨h.generation + 1, false⟩

/-- The changes that edits are made of, with the number of instructions that they take out. -/
inductive Step (s : InstructionSeq) : Nat → InstructionSeq → Prop
  | same : Step s 0 s
  | place {n : Nat} {i : Instruction Handle} (hn : n ≤ s.size)
    (ht : ∀ t ∈ i.targets, s.contains t) : Step s 0 (s.place n i).2
  | erase {h : Handle} {xs ys : List (Handle × Instruction Handle)} {i : Instruction Handle}
    (hl : s.toList = xs ++ (h, i) :: ys) (hc : s.contains h)
    (ht : ∀ item ∈ xs ++ ys, item.1 ≠ h → h ∉ item.2.targets) :
    Step s 1 ⟨s.items.eraseIdxIfInBounds xs.length, retired s.slots h, h.index :: s.free⟩
  | set {h : Handle} {xs ys : List (Handle × Instruction Handle)} {i j : Instruction Handle}
    (hl : s.toList = xs ++ (h, i) :: ys) (hc : s.contains h)
    (ht : ∀ t ∈ j.targets, s.contains t ∨ t ∈ i.targets) :
    Step s 0 { s with items := s.items.setIfInBounds xs.length (h, j) }
  | redirect {old new : Handle} (hc : s.contains new) :
    Step s 0 { s with
      items := s.items.map fun (h, i) => (h, i.mapTargets fun t => if t = old then new else t) }

theorem checkLive_eq_ok : s.checkLive h = .ok () ↔ s.contains h := by
  simp [checkLive]

theorem append_eq_ok {r : Handle × InstructionSeq} (he : s.append i = .ok r) :
    (∀ t ∈ i.targets, s.contains t) ∧ r = s.place s.size i := by
  obtain ⟨⟨⟩, ht, he⟩ := Except.bind_eq_ok.mp he
  cases he
  exact ⟨checkTargets_eq_ok.mp ht, rfl⟩

theorem insertBefore_eq_ok {r : Handle × InstructionSeq} (he : s.insertBefore h i = .ok r) :
    ∃ xs j ys, s.toList = xs ++ (h, j) :: ys ∧ (∀ t ∈ i.targets, s.contains t) ∧
      r = s.place xs.length i := by
  obtain ⟨n, hn, he⟩ := Except.bind_eq_ok.mp he
  obtain ⟨⟨⟩, ht, he⟩ := Except.bind_eq_ok.mp he
  cases he
  obtain ⟨-, xs, j, ys, hl, rfl, -⟩ := split_of_position? (position_eq_ok.mp hn)
  exact ⟨xs, j, ys, hl, checkTargets_eq_ok.mp ht, rfl⟩

theorem insertAfter_eq_ok {r : Handle × InstructionSeq} (he : s.insertAfter h i = .ok r) :
    ∃ xs j ys, s.toList = xs ++ (h, j) :: ys ∧ (∀ t ∈ i.targets, s.contains t) ∧
      r = s.place (xs.length + 1) i := by
  obtain ⟨n, hn, he⟩ := Except.bind_eq_ok.mp he
  obtain ⟨⟨⟩, ht, he⟩ := Except.bind_eq_ok.mp he
  cases he
  obtain ⟨-, xs, j, ys, hl, rfl, -⟩ := split_of_position? (position_eq_ok.mp hn)
  exact ⟨xs, j, ys, hl, checkTargets_eq_ok.mp ht, rfl⟩

/-- The other instructions that have a target. -/
theorem mem_others {g : Handle} : g ∈ (s.targeters h).filter (· ≠ h) ↔
    ∃ i, (g, i) ∈ s.toList ∧ g ≠ h ∧ h ∈ i.targets := by
  rw [List.mem_filter, decide_eq_true_eq, targeters, List.mem_map]
  constructor
  · rintro ⟨⟨item, hi, rfl⟩, hne⟩
    obtain ⟨hi, ht⟩ := List.mem_filter.mp hi
    exact ⟨item.2, hi, hne, List.contains_iff_mem.mp ht⟩
  · rintro ⟨i, hi, hne, ht⟩
    exact ⟨⟨(g, i), List.mem_filter.mpr ⟨hi, List.contains_iff_mem.mpr ht⟩, rfl⟩, hne⟩

theorem remove_eq_ok {r : Instruction Handle × InstructionSeq} (he : s.remove h = .ok r) :
    s.contains h ∧ ∃ xs j ys, s.toList = xs ++ (h, j) :: ys ∧
      (∀ item ∈ xs ++ ys, item.1 ≠ h → h ∉ item.2.targets) ∧
        r = (j, ⟨s.items.eraseIdxIfInBounds xs.length, retired s.slots h, h.index :: s.free⟩) := by
  obtain ⟨n, hn, he⟩ := Except.bind_eq_ok.mp he
  obtain ⟨hc, xs, j, ys, hl, rfl, hj⟩ := split_of_position? (position_eq_ok.mp hn)
  cases ho : ((s.targeters h).filter (· ≠ h)).isEmpty with
  | false =>
    simp only [ho] at he
    cases he
  | true =>
    simp only [ho, if_true, hj] at he
    cases he
    refine ⟨hc, xs, j, ys, hl, fun item hi hne ht => ?_, rfl⟩
    have hin : item.1 ∈ (s.targeters h).filter (· ≠ h) :=
      mem_others.mpr ⟨item.2, mem_of_mem_around hl hi, hne, ht⟩
    rw [List.isEmpty_iff.mp ho] at hin
    cases hin

theorem remove_of_not_contains (hc : ¬ s.contains h) : s.remove h = .error (.staleHandle h) := by
  have hp : s.position? h = none := by rw [position?_eq, if_neg hc]
  rw [remove, position, hp]
  rfl

/-- An instruction can be removed unless it is the target of another one. -/
theorem remove_of_contains (hs : s.Linked) (hc : s.contains h) :
    ((∃ r, s.remove h = .ok r) ∧ (s.targeters h).filter (· ≠ h) = []) ∨
    s.remove h = .error (.stillTargeted ((s.targeters h).filter (· ≠ h))) ∧
      (s.targeters h).filter (· ≠ h) ≠ [] := by
  obtain ⟨⟨g, i⟩, hm, rfl⟩ := List.mem_map.mp ((hs.live h).mp hc)
  obtain ⟨xs, ys, hl⟩ := List.append_of_mem hm
  have hp := position?_of_split hs hl
  obtain ⟨-, -, j, -, -, -, hj⟩ := split_of_position? hp
  rw [remove, position_eq_ok.mpr hp, Except.ok_bind]
  cases ho : (s.targeters g).filter (· ≠ g) with
  | nil =>
    simp only [List.isEmpty_nil, if_true, hj]
    exact .inl ⟨⟨_, rfl⟩, trivial⟩
  | cons other rest => exact .inr ⟨rfl, List.cons_ne_nil other rest⟩

theorem replace_eq_ok {r : Instruction Handle × InstructionSeq} (he : s.replace h i = .ok r) :
    s.contains h ∧ ∃ xs j ys, s.toList = xs ++ (h, j) :: ys ∧ (∀ t ∈ i.targets, s.contains t) ∧
      r = (j, { s with items := s.items.setIfInBounds xs.length (h, i) }) := by
  obtain ⟨n, hn, he⟩ := Except.bind_eq_ok.mp he
  obtain ⟨⟨⟩, ht, he⟩ := Except.bind_eq_ok.mp he
  obtain ⟨hc, xs, j, ys, hl, rfl, hj⟩ := split_of_position? (position_eq_ok.mp hn)
  simp only [hj] at he
  cases he
  exact ⟨hc, xs, j, ys, hl, checkTargets_eq_ok.mp ht, rfl⟩

theorem setTarget_eq_ok {target : Handle} {r : Bool × InstructionSeq}
    (he : s.setTarget h target = .ok r) : s.contains h ∧ s.contains target ∧
      ∃ xs j ys, s.toList = xs ++ (h, j) :: ys ∧
        ((j.setTarget? target = none ∧ r = (false, s)) ∨ ∃ k, j.setTarget? target = some k ∧
          r = (true, { s with items := s.items.setIfInBounds xs.length (h, k) })) := by
  obtain ⟨n, hn, he⟩ := Except.bind_eq_ok.mp he
  obtain ⟨⟨⟩, ht, he⟩ := Except.bind_eq_ok.mp he
  obtain ⟨hc, xs, j, ys, hl, rfl, hj⟩ := split_of_position? (position_eq_ok.mp hn)
  refine ⟨hc, checkLive_eq_ok.mp ht, xs, j, ys, hl, ?_⟩
  simp only [hj, Option.bind_some] at he
  cases hset : j.setTarget? target with
  | none =>
    simp only [hset] at he
    cases he
    exact .inl ⟨rfl, rfl⟩
  | some k =>
    simp only [hset] at he
    cases he
    exact .inr ⟨k, rfl, rfl⟩

theorem redirect_eq_ok {old new : Handle} {r : Nat × InstructionSeq}
    (he : s.redirect old new = .ok r) : s.contains new ∧
      r = (s.countTargets old, { s with items := s.items.map fun (h, i) =>
        (h, i.mapTargets fun t => if t = old then new else t) }) := by
  obtain ⟨⟨⟩, ht, he⟩ := Except.bind_eq_ok.mp he
  cases he
  exact ⟨checkLive_eq_ok.mp ht, rfl⟩

theorem size_eq_length : s.size = s.toList.length := rfl

theorem length_le_of_append {items more : List (Handle × Instruction Handle)}
    (hl : s.toList = items ++ more) : items.length ≤ s.size := by
  rw [size_eq_length, hl, List.length_append]
  exact Nat.le_add_right _ _

theorem erase_between {items more : List (Handle × Instruction Handle)}
    (hl : s.toList = items ++ (h, i) :: more) {slots : Array HandleSlot} {free : List UInt32} :
    toList ⟨s.items.eraseIdxIfInBounds items.length, slots, free⟩ = items ++ more := by
  rw [toList, Array.toList_eraseIdxIfInBounds, show s.items.toList = _ from hl,
    List.eraseIdx_append_of_length_le (Nat.le_refl _), Nat.sub_self, List.eraseIdx_cons_zero]

theorem set_between {items more : List (Handle × Instruction Handle)} {j : Instruction Handle}
    (hl : s.toList = items ++ (h, i) :: more) :
    toList { s with items := s.items.setIfInBounds items.length (h, j) } =
      items ++ (h, j) :: more := by
  rw [toList, Array.toList_setIfInBounds]
  simp [show s.items.toList = _ from hl]

/-- Every edit that is not refused makes one of the changes. -/
theorem step_of_edit (he : s.edit e = .ok t) : s.Step e.cost t := by
  cases e with
  | append i =>
    obtain ⟨r, hr, rfl⟩ := Except.map_eq_ok.mp he
    obtain ⟨ht, rfl⟩ := append_eq_ok hr
    exact .place (Nat.le_refl _) ht
  | insertBefore h i =>
    obtain ⟨r, hr, rfl⟩ := Except.map_eq_ok.mp he
    obtain ⟨xs, j, ys, hl, ht, rfl⟩ := insertBefore_eq_ok hr
    exact .place (length_le_of_append hl) ht
  | insertAfter h i =>
    obtain ⟨r, hr, rfl⟩ := Except.map_eq_ok.mp he
    obtain ⟨xs, j, ys, hl, ht, rfl⟩ := insertAfter_eq_ok hr
    have hx : xs.length + 1 ≤ s.toList.length := by simp [hl]
    exact .place hx ht
  | remove h =>
    obtain ⟨r, hr, rfl⟩ := Except.map_eq_ok.mp he
    obtain ⟨hc, xs, j, ys, hl, ht, rfl⟩ := remove_eq_ok hr
    exact .erase hl hc ht
  | replace h i =>
    obtain ⟨r, hr, rfl⟩ := Except.map_eq_ok.mp he
    obtain ⟨hc, xs, j, ys, hl, ht, rfl⟩ := replace_eq_ok hr
    exact .set hl hc fun t h' => .inl (ht t h')
  | setTarget h target =>
    obtain ⟨r, hr, rfl⟩ := Except.map_eq_ok.mp he
    obtain ⟨hc, hct, xs, j, ys, hl, ⟨-, rfl⟩ | ⟨k, hset, rfl⟩⟩ := setTarget_eq_ok hr
    · exact .same
    · refine .set hl hc fun t hk => (Instruction.mem_targets_setTarget? hset hk).imp ?_ id
      rintro rfl
      exact hct
  | redirect old new =>
    obtain ⟨r, hr, rfl⟩ := Except.map_eq_ok.mp he
    obtain ⟨hc, rfl⟩ := redirect_eq_ok hr
    exact .redirect hc

theorem place_size {n : Nat} {i : Instruction Handle} : s.slots.size ≤ (s.place n i).2.slots.size ∧
    (s.place n i).2.slots.size ≤ s.slots.size + 1 := by
  obtain ⟨items, slots, free⟩ := s
  cases free with
  | nil =>
    rw [place, Array.size_push]
    exact ⟨Nat.le_succ _, Nat.le_refl _⟩
  | cons =>
    rw [place, Array.size_setIfInBounds]
    exact ⟨Nat.le_refl _, Nat.le_succ _⟩

/-- Slots are never taken away, and at most one comes at a time. -/
theorem Step.size_le {cost : Nat} (h : s.Step cost t) :
    s.slots.size ≤ t.slots.size ∧ t.slots.size ≤ s.slots.size + 1 := by
  cases h with
  | same => exact ⟨Nat.le_refl _, Nat.le_succ _⟩
  | place => exact place_size
  | erase =>
    simp only [retired, Array.size_setIfInBounds]
    exact ⟨Nat.le_refl _, Nat.le_succ _⟩
  | set => exact ⟨Nat.le_refl _, Nat.le_succ _⟩
  | redirect => exact ⟨Nat.le_refl _, Nat.le_succ _⟩

theorem insertIdx_between {α : Type} (xs ys : List α) (x : α) :
    (xs ++ ys).insertIdx xs.length x = xs ++ x :: ys := by
  induction xs with
  | nil => rfl
  | cons y xs ih => rw [List.cons_append, List.length_cons, List.insertIdx_succ_cons, ih,
      List.cons_append]

theorem place_between {items more : List (Handle × Instruction Handle)}
    (hl : s.toList = items ++ more) :
    (s.place items.length i).2.toList = items ++ (s.freshHandle, i) :: more := by
  rw [place_toList (length_le_of_append hl), hl, insertIdx_between]

theorem place_handle {n : Nat} : (s.place n i).1 = s.freshHandle := by
  obtain ⟨items, slots, free⟩ := s
  cases free <;> rfl

theorem place_room {n : Nat} (hroom : s.slots.size < UInt32.size) :
    (s.place n i).2.slots.size ≤ UInt32.size := by
  obtain ⟨items, slots, free⟩ := s
  cases free with
  | nil =>
    rw [place, Array.size_push]
    exact hroom
  | cons index free =>
    rw [place, Array.size_setIfInBounds]
    exact Nat.le_of_lt hroom

/-! ### Generations -/

/-- No slot was given up more often than a number of times. -/
def Young (s : InstructionSeq) (n : Nat) : Prop :=
  ∀ (k : Nat) (slot : HandleSlot), s.slots[k]? = some slot → slot.generation.toNat ≤ n

/-- The slot of the handle has been given up since. -/
def Outgrown (s : InstructionSeq) (h : Handle) : Prop :=
  ∃ slot, s.slots[h.index.toNat]? = some slot ∧ h.generation < slot.generation

theorem Outgrown.not_contains (ho : s.Outgrown h) : ¬ s.contains h := by
  obtain ⟨slot, hs, hg⟩ := ho
  rw [contains_iff, hs]
  intro he
  cases he
  exact UInt32.lt_irrefl _ hg

/-- A place is found in a new slot, or in an old one of the same generation. -/
theorem place_slot : (s.place n i).2.slots[k]? = some slot →
    slot = ⟨0, true⟩ ∨ ∃ live, s.slots[k]? = some ⟨slot.generation, live⟩ := by
  obtain ⟨items, slots, free⟩ := s
  intro h
  cases free with
  | nil =>
    rw [place, Array.getElem?_push] at h
    split at h
    · exact .inl (Option.some.inj h).symm
    · exact .inr ⟨slot.live, h⟩
  | cons index free =>
    rw [place, Array.getElem?_setIfInBounds] at h
    split at h
    · rename_i hk
      subst hk
      split at h
      · rename_i hb
        cases h
        refine .inr ⟨slots[index.toNat].live, ?_⟩
        simp [freshHandle, Array.getElem?_eq_getElem hb]
      · cases h
    · exact .inr ⟨slot.live, h⟩

theorem young_place (hy : s.Young n) : (s.place k i).2.Young n := by
  intro m slot hs
  rcases place_slot hs with rfl | ⟨live, hs⟩
  · exact Nat.zero_le n
  · exact hy m ⟨slot.generation, live⟩ hs

theorem place_of_slot (h : s.slots[k]? = some slot) :
    ∃ live, (s.place n i).2.slots[k]? = some ⟨slot.generation, live⟩ ∧ (slot.live → live) := by
  obtain ⟨items, slots, free⟩ := s
  obtain ⟨hb, he⟩ := Array.getElem?_eq_some_iff.mp h
  simp only at hb he
  cases free with
  | nil =>
    refine ⟨slot.live, ?_, id⟩
    rw [place, Array.getElem?_push, if_neg (Nat.ne_of_lt hb)]
    exact h
  | cons index free =>
    simp only at h
    rw [place, Array.getElem?_setIfInBounds]
    split
    · rename_i hk
      subst hk
      exact ⟨true, by simp [hb, freshHandle, he], fun _ => rfl⟩
    · exact ⟨slot.live, h, id⟩

theorem contains_place (hc : s.contains h) : (s.place n i).2.contains h := by
  rw [contains_iff] at hc ⊢
  obtain ⟨live, hp, hl⟩ := place_of_slot (n := n) (i := i) hc
  rw [hp, hl rfl]

theorem Outgrown.place (ho : s.Outgrown h) : (s.place n i).2.Outgrown h := by
  obtain ⟨slot, hs, hg⟩ := ho
  obtain ⟨live, hp, -⟩ := place_of_slot (n := n) (i := i) hs
  exact ⟨_, hp, hg⟩

theorem young_retired {items : Array (Handle × Instruction Handle)} {free : List UInt32}
    (hc : s.contains h) (hy : s.Young n) : Young ⟨items, retired s.slots h, free⟩ (n + 1) := by
  intro k slot hs
  have hg := hy _ _ (contains_iff.mp hc)
  simp only [retired, Array.getElem?_setIfInBounds] at hs
  split at hs
  · split at hs
    · cases hs
      simp only [UInt32.toNat_add]
      exact Nat.le_trans (Nat.mod_le _ _) (Nat.succ_le_succ hg)
    · cases hs
  · exact Nat.le_succ_of_le (hy k slot hs)

theorem generation_lt (hy : s.Young n) (hn : n + 1 < UInt32.size) (hc : s.contains h) :
    h.generation < h.generation + 1 := by
  have hg : h.generation.toNat ≤ n := hy _ _ (contains_iff.mp hc)
  have hs : UInt32.size = 2 ^ 32 := rfl
  rw [UInt32.lt_iff_toNat_lt, UInt32.toNat_add, UInt32.toNat_one,
    Nat.mod_eq_of_lt (by omega)]
  exact Nat.lt_succ_self _

theorem outgrown_retired {items : Array (Handle × Instruction Handle)} {free : List UInt32}
    (hy : s.Young n) (hn : n + 1 < UInt32.size) (hc : s.contains h) :
    Outgrown ⟨items, retired s.slots h, free⟩ h := by
  have hb := (Array.getElem?_eq_some_iff.mp (contains_iff.mp hc)).1
  exact ⟨_, Array.getElem?_setIfInBounds_self_of_lt hb, generation_lt hy hn hc⟩

theorem Outgrown.retired {g : Handle} {items : Array (Handle × Instruction Handle)}
    {free : List UInt32} (hy : s.Young n) (hn : n + 1 < UInt32.size) (hc : s.contains g)
    (ho : s.Outgrown h) : Outgrown ⟨items, InstructionSeq.retired s.slots g, free⟩ h := by
  obtain ⟨slot, hs, hg⟩ := ho
  by_cases hx : g.index.toNat = h.index.toNat
  · have hcg := contains_iff.mp hc
    rw [hx, hs] at hcg
    cases hcg
    refine ⟨⟨g.generation + 1, false⟩, ?_, UInt32.lt_trans hg (generation_lt hy hn hc)⟩
    rw [InstructionSeq.retired, hx]
    exact Array.getElem?_setIfInBounds_self_of_lt (Array.getElem?_eq_some_iff.mp hs).1
  · refine ⟨slot, ?_, hg⟩
    rw [InstructionSeq.retired, Array.getElem?_setIfInBounds_ne hx]
    exact hs

theorem Step.young {cost : Nat} (hs : s.Step cost t) (hy : s.Young n) : t.Young (n + cost) := by
  cases hs with
  | same => exact hy
  | place => exact young_place hy
  | erase _ hc => exact young_retired hc hy
  | set => exact hy
  | redirect => exact hy

theorem Step.outgrown {cost : Nat} (hs : s.Step cost t) (hy : s.Young n)
    (hn : n + cost < UInt32.size) (ho : s.Outgrown h) : t.Outgrown h := by
  cases hs with
  | same => exact ho
  | place => exact ho.place
  | erase _ hc => exact ho.retired hy hn hc
  | set => exact ho
  | redirect => exact ho

end Classfile.InstructionSeq
