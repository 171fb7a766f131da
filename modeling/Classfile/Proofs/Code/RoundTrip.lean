import Classfile.Proofs.Code.Layout
import Classfile.Proofs.Code.Reachable
import Classfile.Proofs.Code.Settled

/-!
Reading code undoes laying it out. The first pass meets each instruction at the offset that the
layout has for it; the second finds at the offset of a target the instruction that was meant.
-/
namespace Classfile

variable {s : InstructionSeq} {pool : ConstantPool} {bytes : List UInt8}

namespace Layout

variable {l : Layout} {offset : Nat}

/-- How far away a target is from an offset. -/
def distance (l : Layout) (offset : Nat) (target : Handle) : Except Fault Int :=
  match l.offsetOf? target with
  | some there => .ok (there - offset : Int)
  | none => .error (.staleHandle target)

/-- Where a target is. -/
def destination (l : Layout) (target : Handle) : Int := ((l.offsetOf? target).getD 0 : Nat)

theorem destination_of_distance {target : Handle} {d : Int}
    (h : l.distance offset target = .ok d) : offset + d = l.destination target := by
  unfold distance at h
  rw [destination]
  split at h
  · rename_i there ho
    cases h
    rw [ho, Option.getD_some]
    omega
  · cases h

/-- The row and its bytes. -/
def Writes (l : Layout) (row : (Nat × Placed) × Instruction Handle) (piece : List UInt8) : Prop :=
  row.2.bytes row.1.1 row.1.2.widened (l.distance row.1.1) = .ok piece

theorem encodeIn_eq_ok : s.encodeIn l = .ok bytes ↔ l.codeLength ≤ maxCodeLength ∧
    ∃ pieces, List.Forall₂ l.Writes (l.zip s) pieces ∧ bytes = pieces.flatten := by
  unfold InstructionSeq.encodeIn
  by_cases hc : l.codeLength > maxCodeLength
  · simp only [hc, if_true, Except.throw_eq, Except.error_bind]
    constructor
    · rintro ⟨⟩
    · rintro ⟨h, -⟩
      omega
  · simp only [hc, if_false, Except.bind_eq_ok, Except.mapM_eq_ok]
    constructor
    · rintro ⟨pieces, hp, h⟩
      cases h
      exact ⟨by omega, pieces, hp, rfl⟩
    · rintro ⟨-, pieces, hp, rfl⟩
      exact ⟨pieces, hp, rfl⟩

variable {wide : Handle → Bool} {items : List (Handle × Instruction Handle)}

/-- What the first pass reads: an instruction with offsets for its targets. -/
def reading (l : Layout) (row : (Nat × Placed) × Instruction Handle) : Nat × Instruction Int :=
  (row.1.1, (row.2.settled row.1.2.widened).mapTargets l.destination)

/-- The first pass. The bytes that are left bound how many instructions there can be. -/
theorem readAllOnto_rows {pieces : List (List UInt8)}
    (hw : ∀ item ∈ items, wide item.1 → item.2.isJump)
    (ht : ∀ item ∈ items, item.2.WellTyped pool)
    (hc : offset + Width.total (places wide offset items) ≤ maxCodeLength)
    (hp : List.Forall₂ l.Writes (rows wide offset items) pieces)
    {fuel : Nat} (hf : pieces.flatten.length ≤ fuel) (done : List (Nat × Instruction Int)) :
    Instruction.readAllOnto pool done fuel ⟨offset, pieces.flatten⟩ =
      .ok (done.reverse ++ (rows wide offset items).map l.reading) := by
  induction items generalizing offset pieces fuel done with
  | nil =>
    cases hp
    cases fuel <;> simp [Instruction.readAllOnto, rows]
  | cons item items ih =>
    obtain ⟨piece, pieces, hpiece, hps, rfl⟩ := List.forall₂_cons_left_iff.mp hp
    have hwidth : piece.length = (placing wide offset item).width :=
      Instruction.length_bytes (hw item List.mem_cons_self) hpiece
    have hlen : item.2.lengthAt offset ≤ (placing wide offset item).width := Nat.le_add_right _ _
    have hpos : 0 < item.2.lengthAt offset := lengthAt_pos item.2
    simp only [places_cons, Width.total_cons, Width.width, maxCodeLength] at hc
    rw [List.flatten_cons, List.length_append] at hf
    obtain ⟨fuel, rfl⟩ : ∃ m, fuel = m + 1 := ⟨fuel - 1, by omega⟩
    have hne : (piece ++ pieces.flatten).isEmpty = false := by
      rw [List.isEmpty_eq_false_iff, ← List.length_pos_iff, List.length_append]
      omega
    have hshort : item.2.lengthAt offset < 2 ^ 31 := by omega
    have hread := Instruction.yields_read (fun _ _ => destination_of_distance)
      (ht item List.mem_cons_self) hshort hpiece offset pieces.flatten
    rw [List.flatten_cons, Instruction.readAllOnto]
    simp only [hne, StateT.run, hread, hwidth]
    have hi := ih (fun x hx => hw x (List.mem_cons_of_mem _ hx))
      (fun x hx => ht x (List.mem_cons_of_mem _ hx)) (by simp only [maxCodeLength]; omega) hps
      (show pieces.flatten.length ≤ fuel by omega)
    rw [if_neg Bool.false_ne_true, hi]
    simp [rows, reading]

theorem row_mem_placed {row : (Nat × Placed) × Instruction Handle}
    (hr : row ∈ rows wide offset items) :
    row.1 ∈ Width.placed offset (places wide offset items) := by
  rw [← rows_map_fst]
  exact List.mem_map_of_mem hr

theorem reading_lt : ∀ x ∈ (rows wide offset items).map l.reading,
    x.1 < offset + Width.total (places wide offset items) := by
  intro x hx
  obtain ⟨row, hr, rfl⟩ := List.mem_map.mp hx
  exact Width.lt_of_mem_placed places_pos (row_mem_placed hr)

theorem le_reading : ∀ x ∈ (rows wide offset items).map l.reading, offset ≤ x.1 := by
  intro x hx
  obtain ⟨row, hr, rfl⟩ := List.mem_map.mp hx
  exact (Width.placed_bounds (row_mem_placed hr)).1

theorem rows_map_settled {g : Handle → Handle} : (rows wide offset items).map (fun row =>
      (row.2.settled row.1.2.widened).mapTargets g) =
    items.map fun item => (item.2.settled (wide item.1)).mapTargets g := by
  induction items generalizing offset with
  | nil => rfl
  | cons item items ih =>
    rw [rows, List.map_cons, List.map_cons, ih]
    rfl

/-- The row of an instruction, by its handle. -/
def rowOf (s : InstructionSeq) (wide : Std.HashSet Handle) (item : Handle × Instruction Handle) :
    (Nat × Placed) × Instruction Handle :=
  let offset := ((widening s wide).offsetOf? item.1).getD 0
  ((offset, placing wide.contains offset item), item.2)

theorem rows_eq_map {wide : Std.HashSet Handle} {xs : List (Handle × Instruction Handle)}
    (hs : s.Linked) (hl : s.toList = xs ++ items) :
    rows wide.contains (Width.total (places wide.contains 0 xs)) items =
      items.map (rowOf s wide) := by
  induction items generalizing xs with
  | nil => rfl
  | cons item items ih =>
    have hi := @ih (xs ++ [item]) (by rw [hl, List.append_assoc]; rfl)
    rw [places_append, Width.total_append, Nat.zero_add] at hi
    rw [rows, List.map_cons, rowOf, widening_offsetOf? wide hs hl, ← hi]
    rfl

end Layout

open InstructionSeq

theorem startsOf_eq (items : List (Nat × Instruction Int)) : startsOf items =
    ((items.map (·.1)).zipIdx.map fun (offset, k) => (offset, handleOf k)).toArray := by
  rw [startsOf, List.zipIdx_map, List.map_map]
  rfl

/-- The first key that is not below an offset is that of the instruction that starts there. -/
theorem handleAtOffset?_startsOf {before after : List (Nat × Instruction Int)} {offset : Nat}
    {i : Instruction Int} (hb : ∀ x ∈ before, x.1 < offset) (ha : ∀ x ∈ after, offset ≤ x.1) :
    handleAtOffset? (startsOf (before ++ (offset, i) :: after)) offset =
      some (handleOf before.length) := by
  have hl : (startsOf (before ++ (offset, i) :: after)).toList =
      before.zipIdx.map (fun e => (e.1.1, handleOf e.2)) ++
        ((offset, handleOf before.length) ::
          (after.zipIdx (before.length + 1)).map fun e => (e.1.1, handleOf e.2)) := by
    simp [startsOf, List.zipIdx_append]
  have hlen : (before.zipIdx.map fun e => (e.1.1, handleOf e.2)).length = before.length := by
    simp
  have hlb : lowerBound (startsOf (before ++ (offset, i) :: after)) offset = before.length := by
    rw [lowerBound_eq hl, hlen]
    · intro x hx
      obtain ⟨⟨y, k⟩, hy, rfl⟩ := List.mem_map.mp hx
      exact hb y (List.fst_mem_of_mem_zipIdx hy)
    · intro x hx
      rcases List.mem_cons.mp hx with rfl | hx
      · exact Nat.le_refl _
      · obtain ⟨⟨y, k⟩, hy, rfl⟩ := List.mem_map.mp hx
        exact ha y (List.fst_mem_of_mem_zipIdx hy)
  have hg : (startsOf (before ++ (offset, i) :: after))[before.length]? =
      some (offset, handleOf before.length) := by
    rw [← Array.getElem?_toList, hl, List.getElem?_append_right (by rw [hlen]), hlen,
      Nat.sub_self]
    rfl
  rw [handleAtOffset?, hlb, hg]
  simp

theorem Layout.handleAtOffset?_reading (l : Layout) (wide : Handle → Bool) (offset : Nat)
    (xs ys : List (Handle × Instruction Handle)) (item : Handle × Instruction Handle) :
    handleAtOffset? (startsOf ((rows wide offset (xs ++ item :: ys)).map l.reading))
      (offset + Width.total (places wide offset xs)) = some (handleOf xs.length) := by
  have hlen : ((rows wide offset xs).map l.reading).length = xs.length := by
    rw [List.length_map, ← List.length_map (·.1.2)]
    exact places_length
  rw [rows_append, List.map_append, rows, List.map_cons, ← hlen]
  refine handleAtOffset?_startsOf reading_lt fun x hx => ?_
  exact Nat.le_trans (Nat.le_add_right _ _) (le_reading x hx)

namespace InstructionSeq

/-- The handle that an instruction gets when the code of the sequence is read. -/
def renumber (s : InstructionSeq) (h : Handle) : Handle := handleOf ((s.position? h).getD 0)

/-- What the code of the sequence is read as: the same instructions with new handles, and where
each of them starts. -/
def readBack (s : InstructionSeq) : DecodedCode where
  instructions := ofList (s.toList.map fun item =>
    (item.2.settled (s.layout.isWidened item.1)).mapTargets s.renumber)
  offsets := (s.toList.zipIdx.map fun (item, k) =>
    ((s.layout.offsetOf? item.1).getD 0, handleOf k)).toArray

variable {wide : Std.HashSet Handle} {h : Handle}

theorem exists_split (hh : h ∈ s.handles) : ∃ xs i ys, s.toList = xs ++ (h, i) :: ys := by
  obtain ⟨⟨g, i⟩, hm, rfl⟩ := List.mem_map.mp hh
  obtain ⟨xs, ys, hl⟩ := List.append_of_mem hm
  exact ⟨xs, i, ys, hl⟩

theorem resolveTarget_renumber (hs : s.Linked) (hh : h ∈ s.handles) (start : Nat) :
    resolveTarget (startsOf ((Layout.rows wide.contains 0 s.toList).map
      (Layout.widening s wide).reading)) start ((Layout.widening s wide).destination h) =
        .ok (s.renumber h) := by
  obtain ⟨xs, i, ys, hl⟩ := exists_split hh
  have hd : (Layout.widening s wide).destination h =
      (Width.total (Layout.places wide.contains 0 xs) : Nat) := by
    rw [Layout.destination, Layout.widening_offsetOf? wide hs hl, Option.getD_some]
  have hf := Layout.handleAtOffset?_reading (Layout.widening s wide) wide.contains 0 xs ys (h, i)
  rw [← hl, Nat.zero_add] at hf
  rw [hd, resolveTarget, if_neg (by omega), Int.toNat_natCast, hf, renumber,
    position?_of_split hs hl]
  rfl

/-- Instructions are widened only if they are jumps. -/
theorem isJump_of_widened (hs : s.Linked) (hj : Layout.WidensJumps s wide) :
    ∀ item ∈ s.toList, wide.contains item.1 → item.2.isJump := by
  rintro ⟨h, i⟩ hm hw
  obtain ⟨j, hmj, hj⟩ := hj h (Std.HashSet.mem_iff_contains.mpr hw)
  have he := List.inj_on_of_nodup_map hs.nodup hm hmj rfl
  cases he
  exact hj

theorem readBack_eq (hs : s.Linked) (hl : s.layout = Layout.widening s wide) :
    s.readBack = ⟨ofList ((Layout.rows wide.contains 0 s.toList).map fun row =>
        (row.2.settled row.1.2.widened).mapTargets s.renumber),
      startsOf ((Layout.rows wide.contains 0 s.toList).map (Layout.widening s wide).reading)⟩ := by
  have hw : ∀ item ∈ s.toList, s.layout.isWidened item.1 = wide.contains item.1 := by
    rintro ⟨h, i⟩ hm
    obtain ⟨xs, ys, hs'⟩ := List.append_of_mem hm
    rw [hl, Layout.widening_isWidened wide hs hs']
  have hi : (s.toList.map fun item =>
      (item.2.settled (s.layout.isWidened item.1)).mapTargets s.renumber) =
      s.toList.map fun item => (item.2.settled (wide.contains item.1)).mapTargets s.renumber :=
    List.map_congr_left fun item hm => by rw [hw item hm]
  have ho : (Layout.rows wide.contains 0 s.toList).map (·.1.1) =
      s.toList.map fun item => (s.layout.offsetOf? item.1).getD 0 := by
    have hrows := @Layout.rows_eq_map s s.toList wide [] hs (List.nil_append _).symm
    rw [hl]
    exact (congrArg (List.map (·.1.1)) hrows).trans List.map_map
  have hstarts : startsOf ((Layout.rows wide.contains 0 s.toList).map
      (Layout.widening s wide).reading) = (s.toList.zipIdx.map fun (item, k) =>
        ((s.layout.offsetOf? item.1).getD 0, handleOf k)).toArray := by
    rw [startsOf_eq, List.map_map]
    change (((Layout.rows wide.contains 0 s.toList).map (·.1.1)).zipIdx.map _).toArray = _
    rw [ho, List.zipIdx_map, List.map_map]
    rfl
  rw [readBack, Layout.rows_map_settled, hi, hstarts]

theorem decodeCode_bytes (hs : s.Linked) (ht : ∀ item ∈ s.toList, item.2.WellTyped pool)
    (h : s.encode = .ok bytes) : decodeCode pool bytes = .ok s.readBack := by
  obtain ⟨wide, hl, hj⟩ := Layout.exists_widening s
  rw [encode, hl] at h
  obtain ⟨hc, pieces, hp, rfl⟩ := Layout.encodeIn_eq_ok.mp h
  rw [Layout.widening_zip] at hp
  rw [Layout.codeLength, Layout.widening_table, WidthTable.ofList_extent] at hc
  have hread := Layout.readAllOnto_rows (isJump_of_widened hs hj) ht hc hp (Nat.le_refl _) []
  rw [readBack_eq hs hl, decodeCode_eq_ok]
  refine ⟨_, _, hread, ?_, rfl⟩
  rw [List.reverse_nil, List.nil_append, List.mapM_map]
  refine Except.mapM_eq_ok_map fun row hr => ?_
  obtain ⟨hm, -⟩ := Layout.mem_rows hr
  refine Instruction.resolve_mapTargets fun t ht => ?_
  rw [Instruction.mem_targets_settled] at ht
  exact resolveTarget_renumber hs (hs.targets _ hm t ht) _

end InstructionSeq

end Classfile
