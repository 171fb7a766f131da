import Classfile.Proofs.Code.Settling
import Classfile.Proofs.Code.Starts

/-!
What was read back is written as the same bytes again. Nothing is widened any more, since the jumps
that had to be are wide jumps now, and every instruction stands where it stood.
-/
namespace Classfile

open InstructionSeq

variable {s : InstructionSeq} {bytes : List UInt8}

namespace Layout

variable {l l' : Layout} {wide : Handle → Bool} {g : Handle → Handle} {offset n : Nat}
  {items xs ys : List (Handle × Instruction Handle)} {item : Handle × Instruction Handle}

/-- The instructions as they come back, with handles in their order and with other targets. -/
def relabel (wide : Handle → Bool) (g : Handle → Handle) :
    Nat → List (Handle × Instruction Handle) → List (Handle × Instruction Handle)
  | _, [] => []
  | n, item :: items =>
    (handleOf n, (item.2.settled (wide item.1)).mapTargets g) :: relabel wide g (n + 1) items

theorem relabel_eq : relabel wide g n items = ((items.map fun item =>
    (item.2.settled (wide item.1)).mapTargets g).zipIdx n).map fun (i, k) => (handleOf k, i) := by
  induction items generalizing n with
  | nil => rfl
  | cons item items ih => rw [relabel, ih]; rfl

theorem relabel_append :
    relabel wide g n (xs ++ ys) = relabel wide g n xs ++ relabel wide g (n + xs.length) ys := by
  induction xs generalizing n with
  | nil => rfl
  | cons item xs ih =>
    rw [List.cons_append, relabel, ih, relabel, List.length_cons, Nat.add_assoc,
      Nat.add_comm 1]
    rfl

/-- A widened jump has the place of the wide jump that it comes back as. -/
theorem width_relabel (hw : wide item.1 → item.2.isJump) :
    (placing (fun _ => false) offset
      (handleOf n, (item.2.settled (wide item.1)).mapTargets g)).width =
        (placing wide offset item).width := by
  simp only [placing, Instruction.lengthAt_settled g hw, Bool.false_eq_true, if_false,
    Nat.add_zero]

theorem total_relabel (hw : ∀ item ∈ items, wide item.1 → item.2.isJump) :
    Width.total (places (fun _ => false) offset (relabel wide g n items)) =
      Width.total (places wide offset items) := by
  induction items generalizing offset n with
  | nil => rfl
  | cons item items ih =>
    simp only [relabel, places_cons, Width.total_cons, Width.width,
      width_relabel (hw item List.mem_cons_self)]
    rw [ih fun x hx => hw x (List.mem_cons_of_mem _ hx)]

theorem writes_relabel {pieces : List (List UInt8)}
    (hw : ∀ item ∈ items, wide item.1 → item.2.isJump)
    (hd : ∀ item ∈ items, ∀ t ∈ item.2.targets, ∀ o, l'.distance o (g t) = l.distance o t)
    (hp : List.Forall₂ l.Writes (rows wide offset items) pieces) :
    List.Forall₂ l'.Writes (rows (fun _ => false) offset (relabel wide g n items)) pieces := by
  induction items generalizing offset n pieces with
  | nil =>
    cases hp
    exact .nil
  | cons item items ih =>
    obtain ⟨piece, pieces, hpiece, hps, rfl⟩ := List.forall₂_cons_left_iff.mp hp
    rw [relabel, rows, width_relabel (hw item List.mem_cons_self)]
    refine .cons ?_ (ih (fun x hx => hw x (List.mem_cons_of_mem _ hx))
      (fun x hx => hd x (List.mem_cons_of_mem _ hx)) hps)
    exact Instruction.bytes_settled (fun t ht => hd item List.mem_cons_self t ht _) hpiece

/-- A jump that was written in two bytes is not oversized. -/
theorem isOversized_of_writes {row : (Nat × Placed) × Instruction Handle} {piece : List UInt8}
    (h : l.Writes row piece) : l.isOversized row.1.1 row.1.2 row.2 = false := by
  obtain ⟨⟨offset, ⟨handle, width, widened⟩⟩, i⟩ := row
  cases i with
  | jump kind target =>
    cases widened with
    | true => cases ho : l.offsetOf? target <;> simp [isOversized, ho]
    | false =>
      obtain ⟨piece, ht, rfl⟩ := Except.map_eq_ok.mp h
      obtain ⟨d, hd, hr, rfl⟩ := Instruction.narrowJump_eq_ok.mp ht
      unfold distance at hd
      cases ho : l.offsetOf? target with
      | none => simp [isOversized, ho]
      | some there =>
        simp only [ho, Except.ok.injEq] at hd
        simp only [isOversized, ho, hd]
        simp
        omega
  | _ => rfl

theorem oversized_of_writes {pieces : List (List UInt8)}
    (hp : List.Forall₂ l.Writes (l.zip s) pieces) : l.oversized s = [] := by
  rw [oversized]
  generalize l.zip s = rows at hp
  induction hp with
  | nil => rfl
  | @cons row piece rows pieces hw _ ih =>
    obtain ⟨⟨offset, placed⟩, i⟩ := row
    have ho : l.isOversized offset placed i = false := isOversized_of_writes hw
    rw [List.filterMap_cons]
    simp only [ho, Bool.false_eq_true, if_false]
    exact ih

/-- A sequence that can be written without widening is written so. -/
theorem encode_of_writes {pieces : List (List UInt8)}
    (hp : List.Forall₂ (widening s ∅).Writes ((widening s ∅).zip s) pieces)
    (hc : (widening s ∅).codeLength ≤ maxCodeLength) :
    s.layout = widening s ∅ ∧ s.encode = .ok pieces.flatten := by
  have hl : s.layout = widening s ∅ := settle_of_oversized _ (oversized_of_writes hp)
  exact ⟨hl, by rw [encode, hl]; exact encodeIn_eq_ok.mpr ⟨hc, pieces, hp, rfl⟩⟩

end Layout

namespace InstructionSeq

variable {wide : Std.HashSet Handle}

theorem readBack_toList (hs : s.Linked) (hl : s.layout = Layout.widening s wide) :
    s.readBack.instructions.toList = Layout.relabel wide.contains s.renumber 0 s.toList := by
  rw [readBack_eq hs hl, Layout.rows_map_settled, Layout.relabel_eq]
  rfl

theorem length_le_codeLength (wide : Std.HashSet Handle) :
    s.toList.length ≤ (Layout.widening s wide).codeLength := by
  rw [Layout.codeLength, Layout.widening_table, WidthTable.ofList_extent, Nat.zero_add,
    ← Layout.places_length]
  exact Width.length_le_total Layout.places_pos

theorem linked_readBack (hs : s.Linked) (hc : s.toList.length ≤ UInt32.size) :
    s.readBack.instructions.Linked := by
  refine linked_ofList (by simpa using hc) ?_
  intro i hi t ht
  obtain ⟨item, hm, rfl⟩ := List.mem_map.mp hi
  rw [Instruction.targets_mapTargets] at ht
  obtain ⟨u, hu, rfl⟩ := List.mem_map.mp ht
  rw [Instruction.mem_targets_settled] at hu
  obtain ⟨xs, j, ys, hl⟩ := exists_split (hs.targets item hm u hu)
  refine ⟨xs.length, ?_, ?_⟩
  · rw [List.length_map, hl, List.length_append, List.length_cons]
    omega
  · rw [renumber, position?_of_split hs hl]
    rfl

theorem distance_renumber (hs : s.Linked) (hc : s.toList.length ≤ UInt32.size)
    (hl : s.layout = Layout.widening s wide) (hj : Layout.WidensJumps s wide) {t : Handle}
    (ht : t ∈ s.handles) (o : Nat) :
    (Layout.widening s.readBack.instructions ∅).distance o (s.renumber t) =
      (Layout.widening s wide).distance o t := by
  obtain ⟨xs, i, ys, hsplit⟩ := exists_split ht
  have hr := readBack_toList hs hl
  rw [hsplit, Layout.relabel_append, Layout.relabel] at hr
  have hn : s.renumber t = handleOf (0 + xs.length) := by
    rw [renumber, position?_of_split hs hsplit, Option.getD_some, Nat.zero_add]
  have he := Layout.contains_empty
  rw [Layout.distance, Layout.distance, Layout.widening_offsetOf? wide hs hsplit, hn,
    Layout.widening_offsetOf? ∅ (linked_readBack hs hc) hr, he, Layout.total_relabel]
  intro item hm
  exact isJump_of_widened hs hj item (by rw [hsplit]; simp [hm])

theorem length_le_size (hc : (Layout.widening s wide).codeLength ≤ maxCodeLength) :
    s.toList.length ≤ UInt32.size := by
  have := length_le_codeLength (s := s) wide
  simp only [maxCodeLength, UInt32.size] at hc ⊢
  omega

/-- Written once more, it is the same code, and no jump is widened. -/
theorem readBack_written (hs : s.Linked) (h : s.encode = .ok bytes) :
    s.readBack.instructions.layout = Layout.widening s.readBack.instructions ∅ ∧
      s.readBack.instructions.encode = .ok bytes := by
  obtain ⟨wide, hl, hj⟩ := Layout.exists_widening s
  rw [encode, hl] at h
  obtain ⟨hc, pieces, hp, rfl⟩ := Layout.encodeIn_eq_ok.mp h
  rw [Layout.widening_zip] at hp
  have hw := isJump_of_widened hs hj
  have he := Layout.contains_empty
  have hp' := Layout.writes_relabel (n := 0) hw (fun item hm t ht o =>
    distance_renumber hs (length_le_size hc) hl hj (hs.targets item hm t ht) o) hp
  rw [← readBack_toList hs hl, ← he, ← Layout.widening_zip] at hp'
  refine Layout.encode_of_writes hp' ?_
  rw [Layout.codeLength, Layout.widening_table, WidthTable.ofList_extent] at hc ⊢
  rwa [he, readBack_toList hs hl, Layout.total_relabel hw]

theorem startAt_readBack {n : Nat} (hs : s.Linked) (hl : s.layout = Layout.widening s wide)
    (hj : Layout.WidensJumps s wide) (hn : n ≤ s.toList.length) :
    s.readBack.instructions.startAt ∅ n = s.startAt wide n := by
  have hr := readBack_toList hs hl
  have ht : s.readBack.instructions.toList.take n =
      Layout.relabel wide.contains s.renumber 0 (s.toList.take n) := by
    rw [← List.take_append_drop n s.toList, Layout.relabel_append] at hr
    rw [hr, List.take_append_of_le_length, List.take_of_length_le]
    all_goals simp [Layout.relabel_eq, hn]
  rw [startAt, startAt, ht, Layout.contains_empty, Layout.total_relabel]
  exact fun item hm => isJump_of_widened hs hj item (List.mem_of_mem_take hm)

theorem size_readBack : s.readBack.instructions.size = s.size := by
  simp [readBack, ofList, size, toList]

/-- The instruction at a position comes back at that position, in its settled form. -/
theorem getElem?_toList_readBack {k : Nat} {h : Handle} {i : Instruction Handle} (hs : s.Linked)
    (hk : s.toList[k]? = some (h, i)) : s.renumber h = handleOf k ∧
      s.readBack.instructions.toList[k]? =
        some (handleOf k, (i.settled (s.layout.isWidened h)).mapTargets s.renumber) := by
  refine ⟨by rw [renumber, position?_of_getElem? hs hk, Option.getD_some], ?_⟩
  rw [readBack, ofList_toList, List.getElem?_map, List.getElem?_zipIdx, List.getElem?_map, hk]
  simp

theorem getElem?_items_readBack {k : Nat} {h : Handle} {i : Instruction Handle} (hs : s.Linked)
    (hk : s.items[k]? = some (h, i)) : s.renumber h = handleOf k ∧
      s.readBack.instructions.items[k]? =
        some (handleOf k, (i.settled (s.layout.isWidened h)).mapTargets s.renumber) := by
  have hl : s.toList[k]? = some (h, i) := by rw [toList, Array.getElem?_toList, hk]
  rw [← Array.getElem?_toList]
  exact getElem?_toList_readBack hs hl

theorem position?_readBack {n : Nat} {h : Handle} (hs : s.Linked)
    (hr : s.readBack.instructions.Linked) (hp : s.position? h = some n) :
    s.readBack.instructions.position? (s.renumber h) = some n := by
  obtain ⟨-, xs, i, ys, hl, rfl, -⟩ := split_of_position? hp
  have hk : s.toList[xs.length]? = some (h, i) := by simp [hl]
  obtain ⟨hn, hi⟩ := getElem?_toList_readBack hs hk
  rw [hn]
  exact position?_of_getElem? hr hi

/-- Reading the code of a sequence gives the instructions of the sequence, in their order and with
new handles. Each is in its settled form, and stands where the layout has put it. Written once
more, it is the same code. -/
theorem decodeCode_encode {pool : ConstantPool} (hs : s.Reachable)
    (ht : ∀ item ∈ s.toList, item.2.WellTyped pool) (h : s.encode = .ok bytes) :
    ∃ d, decodeCode pool bytes = .ok d ∧
      d.instructions.size = s.size ∧
      (∀ k h i, s.items[k]? = some (h, i) → s.renumber h = handleOf k ∧
        d.instructions.items[k]? =
          some (handleOf k, (i.settled (s.layout.isWidened h)).mapTargets s.renumber)) ∧
      d.offsets.size = s.size ∧
      (∀ k h i, s.items[k]? = some (h, i) → ∃ offset, s.layout.offsetOf? h = some offset ∧
        d.offsets[k]? = some (offset, handleOf k)) ∧
      d.instructions.encode = .ok bytes := by
  have hlink := hs.linked
  refine ⟨s.readBack, decodeCode_bytes hlink ht h, size_readBack,
    fun k h i hk => getElem?_items_readBack hlink hk, ?_, ?_, (readBack_written hlink h).2⟩
  · simp [readBack, size, toList]
  · intro k h i hk
    have hl : s.toList[k]? = some (h, i) := by rw [toList, Array.getElem?_toList, hk]
    obtain ⟨wide, hw, -⟩ := Layout.exists_widening s
    obtain ⟨xs, ys, hsplit⟩ := List.append_of_mem (List.mem_of_getElem? hl)
    refine ⟨_, hw ▸ Layout.widening_offsetOf? wide hlink hsplit, ?_⟩
    rw [readBack, List.getElem?_toArray, List.getElem?_map, List.getElem?_zipIdx, hl]
    simp [hw, Layout.widening_offsetOf? wide hlink hsplit]

/-- Code in which no jump has to be widened is written piece by piece. -/
theorem encode_of_pieces (pieces : List (List UInt8))
    (hp : List.Forall₂ (Layout.widening s ∅).Writes (Layout.rows (fun _ => false) 0 s.toList) pieces)
    (hc : Width.total (Layout.places (fun _ => false) 0 s.toList) ≤ maxCodeLength) :
    s.encode = .ok pieces.flatten := by
  refine (Layout.encode_of_writes ?_ ?_).2
  · rwa [Layout.widening_zip, Layout.contains_empty]
  · rwa [Layout.codeLength, Layout.widening_table, Layout.contains_empty, WidthTable.ofList_extent,
      Nat.zero_add]

theorem encode_return {h : Handle} (hs : s.toList = [(h, .simple .returnVoid)]) :
    s.encode = .ok [0xb1] := by
  refine encode_of_pieces [[0xb1]] ?_ ?_ <;> rw [hs]
  · exact .cons rfl .nil
  · change 1 ≤ maxCodeLength
    decide

/-- A loop that loads a constant over and over. -/
def loop : InstructionSeq :=
  ⟨#[(⟨0, 0⟩, .constant ⟨1⟩), (⟨1, 0⟩, .jump .goto ⟨0, 0⟩)], #[⟨0, true⟩, ⟨0, true⟩], []⟩

theorem loop_reachable : loop.Reachable :=
  @reachable_ofList [.constant ⟨1⟩, .jump .goto ⟨0, 0⟩] (by decide) (by decide)

theorem loop_encode : loop.encode = .ok [0x12, 0x01, 0xa7, 0xff, 0xfe] := by
  have hl : loop.toList = [] ++ (⟨0, 0⟩, .constant ⟨1⟩) ::
    [(⟨1, 0⟩, .jump .goto ⟨0, 0⟩)] := rfl
  have ho : (Layout.widening loop ∅).offsetOf? ⟨0, 0⟩ = some 0 :=
    Layout.widening_offsetOf? ∅ loop_reachable.linked hl
  have hd : (Layout.widening loop ∅).distance 2 ⟨0, 0⟩ = .ok (-2) := by
    rw [Layout.distance, ho]
    rfl
  have hj : Instruction.narrowJump 2 ((Layout.widening loop ∅).distance 2) ⟨0, 0⟩ =
      .ok [0xff, 0xfe] := Instruction.narrowJump_eq_ok.mpr ⟨-2, hd, by decide, by decide⟩
  exact encode_of_pieces [[0x12, 0x01], [0xa7, 0xff, 0xfe]]
    (.cons rfl (.cons (Except.map_eq_ok.mpr ⟨_, hj, rfl⟩) .nil)) (by decide)

theorem decodeCode_encode_loop : ∃ d,
    decodeCode ⟨WidthTable.ofList 1 [.integer 7], ∅⟩ [0x12, 0x01, 0xa7, 0xff, 0xfe] = .ok d ∧
      d.instructions.encode = .ok [0x12, 0x01, 0xa7, 0xff, 0xfe] := by
  have ht : ∀ item ∈ loop.toList,
      item.2.WellTyped ⟨WidthTable.ofList 1 [.integer 7], ∅⟩ := by
    intro item hi operand ho
    rcases List.mem_cons.mp hi with rfl | hi
    · cases ho
      rfl
    · cases List.mem_singleton.mp hi
      cases ho
  obtain ⟨d, hd, -, -, -, -, he⟩ := decodeCode_encode loop_reachable ht loop_encode
  exact ⟨d, hd, he⟩

end InstructionSeq

end Classfile
