import Classfile.Proofs.Code.RoundTrip

/-!
Offsets by position: where the first instruction starts, the second one, and so on, up to where the
code ends. What was read back starts at the same offsets, and is found at them.
-/
namespace Classfile.InstructionSeq

open Layout

variable {s : InstructionSeq} {wide : Std.HashSet Handle} {h : Handle} {n m : Nat}

/-- Where the instruction at a position starts when some jumps are widened. The position behind the
last one is that of the end. -/
def startAt (s : InstructionSeq) (wide : Std.HashSet Handle) (n : Nat) : Nat :=
  Width.total (places wide.contains 0 (s.toList.take n))

theorem startAt_lt (hn : n < m) (hm : m ≤ s.toList.length) :
    s.startAt wide n < s.startAt wide m := by
  have hl : s.toList.take m = s.toList.take n ++ (s.toList.take m).drop n := by
    have ht := List.take_append_drop n (s.toList.take m)
    rwa [List.take_take, Nat.min_eq_left (Nat.le_of_lt hn), eq_comm] at ht
  have hd : (s.toList.take m).drop n ≠ [] := by
    rw [← List.length_pos_iff, List.length_drop, List.length_take]
    omega
  obtain ⟨item, rest, hr⟩ := List.exists_cons_of_ne_nil hd
  have hp : 0 < (placing wide.contains (0 + s.startAt wide n) item).width :=
    Nat.lt_of_lt_of_le (lengthAt_pos item.2) (Nat.le_add_right _ _)
  rw [startAt, startAt, hl, places_append, Width.total_append, hr, places_cons, Width.total_cons]
  simp only [Width.width]
  rw [startAt] at hp
  omega

theorem startAt_le (hn : n ≤ m) (hm : m ≤ s.toList.length) :
    s.startAt wide n ≤ s.startAt wide m := by
  rcases Nat.eq_or_lt_of_le hn with rfl | hn
  · exact Nat.le_refl _
  · exact Nat.le_of_lt (startAt_lt hn hm)

theorem startAt_length : s.startAt wide s.toList.length = (widening s wide).codeLength := by
  rw [startAt, List.take_length, codeLength, widening_table, WidthTable.ofList_extent,
    Nat.zero_add]

theorem startAt_zero : s.startAt wide 0 = 0 := rfl

/-- An instruction starts where the one before it ends. -/
theorem startAt_succ {i : Instruction Handle} (hi : s.toList[n]? = some (h, i)) :
    s.startAt wide (n + 1) = s.startAt wide n + i.lengthAt (s.startAt wide n) +
      if wide.contains h then 2 else 0 := by
  rw [startAt, List.take_add_one, hi, Option.toList_some, places_append, Width.total_append,
    Nat.zero_add, Nat.add_assoc]
  rfl

theorem exists_position? (hs : s.Linked) (hc : s.contains h) : ∃ n, s.position? h = some n := by
  obtain ⟨xs, i, ys, hl⟩ := exists_split ((hs.live h).mp hc)
  exact ⟨xs.length, position?_of_split hs hl⟩

theorem take_of_position? (hp : s.position? h = some n) : n < s.toList.length ∧
    ∃ i, s.toList = s.toList.take n ++ (h, i) :: s.toList.drop (n + 1) ∧
      s.toList.take (n + 1) = s.toList.take n ++ [(h, i)] := by
  obtain ⟨-, xs, i, ys, hl, rfl, -⟩ := split_of_position? hp
  refine ⟨by simp [hl], i, by simp [hl, List.drop_append], ?_⟩
  simp [hl, List.take_append, List.take_of_length_le]

theorem offsetOf?_of_position? (hs : s.Linked) (hp : s.position? h = some n) :
    (widening s wide).offsetOf? h = some (s.startAt wide n) := by
  obtain ⟨-, i, hl, -⟩ := take_of_position? hp
  exact widening_offsetOf? wide hs hl

/-- An instruction ends where the next one starts. -/
theorem endOf?_of_position? (hs : s.Linked) (hp : s.position? h = some n) :
    (widening s wide).endOf? h = some (s.startAt wide (n + 1)) := by
  obtain ⟨-, i, hl, ht⟩ := take_of_position? hp
  rw [endOf?, widening_placed? wide hs hl, startAt, ht, places_append, Width.total_append,
    places_cons, Width.total_cons, Nat.zero_add]
  rfl

/-- As many bytes are written as the layout has room for. -/
theorem length_of_writes {l : Layout} {wide : Handle → Bool} {offset : Nat}
    {items : List (Handle × Instruction Handle)} {pieces : List (List UInt8)}
    (hw : ∀ item ∈ items, wide item.1 → item.2.isJump)
    (hp : List.Forall₂ l.Writes (rows wide offset items) pieces) :
    pieces.flatten.length = Width.total (places wide offset items) := by
  induction items generalizing offset pieces with
  | nil =>
    cases hp
    rfl
  | cons item items ih =>
    obtain ⟨piece, pieces, hpiece, hps, rfl⟩ := List.forall₂_cons_left_iff.mp hp
    rw [List.flatten_cons, List.length_append, places_cons, Width.total_cons,
      Instruction.length_bytes (hw item List.mem_cons_self) hpiece,
      ih (fun x hx => hw x (List.mem_cons_of_mem _ hx)) hps]
    rfl

theorem length_encode {bytes : List UInt8} (hs : s.Linked) (hl : s.layout = widening s wide)
    (hj : WidensJumps s wide) (h : s.encode = .ok bytes) :
    bytes.length = s.startAt wide s.toList.length ∧ bytes.length ≤ maxCodeLength := by
  rw [encode, hl] at h
  obtain ⟨hc, pieces, hp, rfl⟩ := encodeIn_eq_ok.mp h
  rw [widening_zip] at hp
  have hlen : pieces.flatten.length = s.startAt wide s.toList.length := by
    rw [length_of_writes (isJump_of_widened hs hj) hp, startAt, List.take_length]
  exact ⟨hlen, by rwa [hlen, startAt_length]⟩

/-! ### The offsets of what was read back -/

theorem readBack_offsets (hs : s.Linked) (hl : s.layout = widening s wide) :
    s.readBack.offsets.toList =
      (List.range s.toList.length).map fun n => (s.startAt wide n, handleOf n) := by
  have hm : ∀ x ∈ s.toList.zipIdx, ((s.layout.offsetOf? x.1.1).getD 0, handleOf x.2) =
      (s.startAt wide x.2, handleOf x.2) := by
    rintro ⟨⟨h, i⟩, n⟩ hx
    have hp := position?_of_getElem? hs (List.mem_zipIdx_iff_getElem?.mp hx)
    rw [hl, offsetOf?_of_position? hs hp]
    rfl
  rw [readBack, List.range_eq_range', ← List.zipIdx_map_snd 0, List.map_map]
  exact List.map_congr_left hm

theorem lowerBound_readBack (hs : s.Linked) (hl : s.layout = widening s wide)
    (hn : n ≤ s.toList.length) : lowerBound s.readBack.offsets (s.startAt wide n) = n := by
  have hr : List.range s.toList.length =
      List.range n ++ (List.range (s.toList.length - n)).map (n + ·) := by
    rw [← List.range_add]
    congr 1
    omega
  have he := readBack_offsets hs hl
  rw [hr, List.map_append, List.map_map] at he
  rw [lowerBound_eq he, List.length_map, List.length_range]
  · intro x hx
    obtain ⟨m, hm, rfl⟩ := List.mem_map.mp hx
    exact startAt_lt (List.mem_range.mp hm) hn
  · intro x hx
    obtain ⟨m, hm, rfl⟩ := List.mem_map.mp hx
    rw [List.mem_range] at hm
    have hle : n + m ≤ s.toList.length := by omega
    exact startAt_le (Nat.le_add_right n m) hle

theorem getElem?_readBack (hs : s.Linked) (hl : s.layout = widening s wide)
    (hn : n < s.toList.length) :
    s.readBack.offsets[n]? = some (s.startAt wide n, handleOf n) := by
  rw [← Array.getElem?_toList, readBack_offsets hs hl]
  simp [hn]

theorem handleAt?_startAt (hs : s.Linked) (hl : s.layout = widening s wide)
    (hn : n < s.toList.length) :
    s.readBack.handleAt? (s.startAt wide n) = some (handleOf n) := by
  rw [DecodedCode.handleAt?, handleAtOffset?, lowerBound_readBack hs hl (Nat.le_of_lt hn),
    getElem?_readBack hs hl hn]
  simp

theorem handleBefore?_startAt (hs : s.Linked) (hl : s.layout = widening s wide)
    (hn : n < s.toList.length) :
    s.readBack.handleBefore? (s.startAt wide (n + 1)) = some (handleOf n) := by
  rw [DecodedCode.handleBefore?, lowerBound_readBack hs hl hn]
  simp [getElem?_readBack hs hl hn]

end Classfile.InstructionSeq
