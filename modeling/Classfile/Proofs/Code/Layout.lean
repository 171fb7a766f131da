import Classfile.Code.Layout
import Classfile.Proofs.Code.Sequence
import Classfile.Proofs.WidthTable

/-!
A layout in which some jumps are widened puts the instructions one behind the other, each at the
offset where the one before it ends. The layout of a sequence is one of these, and it widens nothing
but jumps.
-/
namespace Classfile.Layout

variable {s : InstructionSeq} {wide : Handle → Bool} {offset n : Nat} {h g : Handle}
  {i : Instruction Handle} {items xs ys : List (Handle × Instruction Handle)}

/-- What an instruction at an offset takes up. -/
def placing (wide : Handle → Bool) (offset : Nat) (item : Handle × Instruction Handle) : Placed :=
  ⟨item.1, item.2.lengthAt offset + if wide item.1 then 2 else 0, wide item.1⟩

theorem contains_empty : (∅ : Std.HashSet Handle).contains = fun _ => false := by
  funext h
  simp

/-- Instructions with their places, the first of which is at an offset. -/
def rows (wide : Handle → Bool) :
    Nat → List (Handle × Instruction Handle) → List ((Nat × Placed) × Instruction Handle)
  | _, [] => []
  | offset, item :: items =>
    ((offset, placing wide offset item), item.2) ::
      rows wide (offset + (placing wide offset item).width) items

/-- The places of the instructions. -/
def places (wide : Handle → Bool) (offset : Nat) (items : List (Handle × Instruction Handle)) :
    List Placed := (rows wide offset items).map (·.1.2)

theorem places_cons {item : Handle × Instruction Handle} : places wide offset (item :: items) =
    placing wide offset item ::
      places wide (offset + (placing wide offset item).width) items := rfl

theorem rows_map_fst : (rows wide offset items).map (·.1) =
    Width.placed offset (places wide offset items) := by
  induction items generalizing offset with
  | nil => rfl
  | cons item items ih =>
    simp only [rows, List.map_cons, ih, places_cons, Width.placed, Width.width]

theorem rows_append : rows wide offset (xs ++ ys) = rows wide offset xs ++
    rows wide (offset + Width.total (places wide offset xs)) ys := by
  induction xs generalizing offset with
  | nil => rfl
  | cons item xs ih =>
    simp only [List.cons_append, rows, ih, places_cons, Width.total_cons, Width.width,
      Nat.add_assoc]

theorem places_append : places wide offset (xs ++ ys) = places wide offset xs ++
    places wide (offset + Width.total (places wide offset xs)) ys := by
  rw [places, rows_append, List.map_append]
  rfl

theorem places_length : (places wide offset items).length = items.length := by
  induction items generalizing offset with
  | nil => rfl
  | cons item items ih => rw [places_cons, List.length_cons, ih, List.length_cons]

theorem lengthAt_pos {τ : Type} (i : Instruction τ) : 0 < i.lengthAt offset := by
  cases i <;> simp only [Instruction.lengthAt] <;> (try split) <;> (try split) <;> omega

theorem places_pos : ∀ p ∈ places wide offset items, 0 < Width.width p := by
  induction items generalizing offset with
  | nil => simp [places, rows]
  | cons item items ih =>
    intro p hp
    rw [places_cons, List.mem_cons] at hp
    rcases hp with rfl | hp
    · exact Nat.lt_of_lt_of_le (lengthAt_pos item.2) (Nat.le_add_right _ _)
    · exact ih p hp

/-- Every row is that of one of the instructions. -/
theorem mem_rows {row : (Nat × Placed) × Instruction Handle} (hr : row ∈ rows wide offset items) :
    (row.1.2.handle, row.2) ∈ items ∧ row.1.2 = placing wide row.1.1 (row.1.2.handle, row.2) := by
  induction items generalizing offset with
  | nil => cases hr
  | cons item items ih =>
    rcases List.mem_cons.mp hr with rfl | hr
    · exact ⟨List.mem_cons_self, rfl⟩
    · exact (ih hr).imp (List.mem_cons_of_mem _) id

/-- Put one more instruction at the end of a layout. -/
def extend (wide : Handle → Bool) (l : Layout) (item : Handle × Instruction Handle) : Layout :=
  ⟨l.table.push (placing wide l.table.extent item), l.offsets.insert item.1 l.table.extent⟩

theorem widening_eq (wide : Std.HashSet Handle) : widening s wide =
    s.toList.foldl (extend wide.contains) ⟨WidthTable.startingAt 0, ∅⟩ := by
  rw [widening, ← Array.foldl_toList]
  rfl

theorem extend_table (l : Layout) : (items.foldl (extend wide) l).table =
    (places wide l.table.extent items).foldl WidthTable.push l.table := by
  induction items generalizing l with
  | nil => rfl
  | cons item items ih =>
    rw [List.foldl_cons, ih]
    rfl

theorem extend_extent (l : Layout) : (items.foldl (extend wide) l).table.extent =
    l.table.extent + Width.total (places wide l.table.extent items) := by
  rw [extend_table, WidthTable.foldl_push]

theorem extend_offsets_of_notMem (l : Layout) (hn : h ∉ items.map (·.1)) :
    (items.foldl (extend wide) l).offsets[h]? = l.offsets[h]? := by
  induction items generalizing l with
  | nil => rfl
  | cons item items ih =>
    rw [List.map_cons, List.mem_cons, not_or] at hn
    rw [List.foldl_cons, ih _ hn.2, extend, Std.HashMap.getElem?_insert]
    simp [Ne.symm hn.1]

theorem widening_table (wide : Std.HashSet Handle) : (widening s wide).table =
    WidthTable.ofList 0 (places wide.contains 0 s.toList) := by
  rw [widening_eq, extend_table]
  rfl

/-- Handles being different, the offset of an instruction is where those before it end. -/
theorem widening_offsetOf? (wide : Std.HashSet Handle) (hs : s.Linked)
    (hl : s.toList = xs ++ (h, i) :: ys) : (widening s wide).offsetOf? h =
      some (Width.total (places wide.contains 0 xs)) := by
  have hy : h ∉ ys.map (·.1) := by
    intro hm
    have hm : h ∈ (xs ++ ys).map (·.1) := by
      rw [List.map_append]
      exact List.mem_append_right _ hm
    exact (((InstructionSeq.handles_around hs hl).2 h).mp hm).1 rfl
  rw [offsetOf?, widening_eq, hl, List.foldl_append, List.foldl_cons,
    extend_offsets_of_notMem _ hy, extend, Std.HashMap.getElem?_insert_self, extend_extent]
  exact congrArg some (Nat.zero_add _)

theorem widening_offsetOf?_of_notMem (wide : Std.HashSet Handle) (hn : h ∉ s.handles) :
    (widening s wide).offsetOf? h = none := by
  rw [offsetOf?, widening_eq, extend_offsets_of_notMem _ hn]
  exact Std.HashMap.getElem?_empty

theorem widening_zip (wide : Std.HashSet Handle) :
    (widening s wide).zip s = rows wide.contains 0 s.toList := by
  rw [zip, widening_table, WidthTable.ofList_toList, ← rows_map_fst]
  generalize s.toList = items
  generalize 0 = offset
  induction items generalizing offset with
  | nil => rfl
  | cons item items ih => simp only [rows, List.map_cons, List.zip_cons_cons, ih]

theorem widening_placed? (wide : Std.HashSet Handle) (hs : s.Linked)
    (hl : s.toList = xs ++ (h, i) :: ys) : (widening s wide).placed? h =
      some (Width.total (places wide.contains 0 xs),
        placing wide.contains (Width.total (places wide.contains 0 xs)) (h, i)) := by
  have hf : (widening s wide).table.find? (Width.total (places wide.contains 0 xs)) =
      some (placing wide.contains (Width.total (places wide.contains 0 xs)) (h, i)) := by
    rw [widening_table, WidthTable.find?_eq_some places_pos, hl, Width.mem_placed,
      places_append, places_cons, Nat.zero_add]
    exact ⟨_, _, rfl, (Nat.zero_add _).symm⟩
  rw [placed?, widening_offsetOf? wide hs hl]
  simp [hf]

theorem widening_isWidened (wide : Std.HashSet Handle) (hs : s.Linked)
    (hl : s.toList = xs ++ (h, i) :: ys) : (widening s wide).isWidened h = wide.contains h := by
  rw [isWidened, widening_placed? wide hs hl]
  rfl

/-- What is widened is a jump. -/
def WidensJumps (s : InstructionSeq) (wide : Std.HashSet Handle) : Prop :=
  ∀ h ∈ wide, ∃ i, (h, i) ∈ s.toList ∧ i.isJump

theorem oversized_jump {wide : Std.HashSet Handle} (hh : h ∈ (widening s wide).oversized s) :
    ∃ i, (h, i) ∈ s.toList ∧ i.isJump := by
  rw [oversized, widening_zip] at hh
  obtain ⟨⟨⟨o, p⟩, i⟩, hr, hp⟩ := List.mem_filterMap.mp hh
  simp only [Option.ite_none_right_eq_some, Option.some.injEq] at hp
  obtain ⟨ho, rfl⟩ := hp
  refine ⟨i, (mem_rows hr).1, ?_⟩
  cases i with
  | jump kind target => rfl
  | _ => cases ho

theorem widensJumps_insertMany {wide : Std.HashSet Handle} (hw : WidensJumps s wide) :
    WidensJumps s (wide.insertMany ((widening s wide).oversized s)) := by
  intro h hh
  rw [Std.HashSet.mem_insertMany_list] at hh
  rcases hh with hh | hh
  · exact hw h hh
  · exact oversized_jump (List.contains_iff_mem.mp hh)

/-- Settling ends with some jumps widened, and what every round keeps holds of these. -/
theorem settle_invariant {P : Std.HashSet Handle → Prop} {wide : Std.HashSet Handle}
    (hstep : ∀ wide, P wide → P (wide.insertMany ((widening s wide).oversized s))) (hw : P wide) :
    ∃ wider, settle s n wide = widening s wider ∧ P wider := by
  induction n generalizing wide with
  | zero => exact ⟨wide, rfl, hw⟩
  | succ n ih =>
    rw [settle]
    split
    · exact ⟨wide, rfl, hw⟩
    · exact ih (hstep wide hw)

theorem exists_widening (s : InstructionSeq) :
    ∃ wide, s.layout = widening s wide ∧ WidensJumps s wide :=
  settle_invariant (fun _ => widensJumps_insertMany) fun _ hh =>
    absurd hh Std.HashSet.not_mem_empty

end Classfile.Layout
