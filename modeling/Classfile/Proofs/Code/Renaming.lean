import Classfile.Proofs.Code.Passes
import Classfile.Proofs.Code.Reencoding

/-!
How a sequence came about does not show in its code. Its handles tell which slots were free when its
instructions came, and nothing else does. With other handles for the same instructions every pass of
the layout places them as before and finds the same jumps out of reach, so the code is the same, and
so is the fault if there is one.
-/
namespace Classfile

open InstructionSeq

namespace Layout

variable {f : Handle → Handle} {items : List (Handle × Instruction Handle)} {offset : Nat}

/-- The instruction with the handle that `f` gives for its own, and with the targets so, too. -/
def renameItem (f : Handle → Handle) (item : Handle × Instruction Handle) :
    Handle × Instruction Handle := (f item.1, item.2.mapTargets f)

/-- The same place for the instruction with its other handle. -/
def renameRow (f : Handle → Handle) (row : (Nat × Placed) × Instruction Handle) :
    (Nat × Placed) × Instruction Handle :=
  ((row.1.1, { row.1.2 with handle := f row.1.2.handle }), row.2.mapTargets f)

section

variable {wide wide' : Handle → Bool}

theorem rows_rename (hw : ∀ item ∈ items, wide' (f item.1) = wide item.1) :
    rows wide' offset (items.map (renameItem f)) = (rows wide offset items).map (renameRow f) := by
  induction items generalizing offset with
  | nil => rfl
  | cons item items ih =>
    have hp : placing wide' offset (renameItem f item) =
        { placing wide offset item with handle := f item.1 } := by
      simp only [placing, renameItem, Instruction.lengthAt_mapTargets, hw item List.mem_cons_self]
    rw [List.map_cons, rows, rows, hp, ih fun x hx => hw x (List.mem_cons_of_mem _ hx)]
    rfl

theorem total_rename (hw : ∀ item ∈ items, wide' (f item.1) = wide item.1) :
    Width.total (places wide' offset (items.map (renameItem f))) =
      Width.total (places wide offset items) := by
  simp only [Width.total, places, rows_rename hw, List.map_map]
  rfl

end

/-- Whether a jump is out of reach depends on where its target is. -/
theorem isOversized_rename {l l' : Layout} {placed : Placed} {i : Instruction Handle} {h : Handle}
    (ho : ∀ t ∈ i.targets, l'.offsetOf? (f t) = l.offsetOf? t) :
    l'.isOversized offset { placed with handle := h } (i.mapTargets f) =
      l.isOversized offset placed i := by
  cases i with
  | jump kind target =>
    simp only [Instruction.mapTargets, isOversized, ho target List.mem_cons_self]
  | _ => rfl

end Layout

namespace InstructionSeq

open Layout

variable {s t : InstructionSeq} {f : Handle → Handle} {h g : Handle}
  {wide wide' : Std.HashSet Handle} {n : Nat}

/-- In `t` are the instructions of `s` in their order. For the handle at each position of `s`, be it
that of an instruction or of a target, `f` gives the handle at that position of `t`. -/
def Renames (f : Handle → Handle) (s t : InstructionSeq) : Prop :=
  t.toList = s.toList.map (renameItem f)

/-- The same instructions are widened. -/
def Agrees (f : Handle → Handle) (s : InstructionSeq) (wide wide' : Std.HashSet Handle) : Prop :=
  ∀ h ∈ s.handles, wide'.contains (f h) = wide.contains h

theorem agrees_empty : Agrees f s ∅ ∅ := by
  intro h _
  simp only [contains_empty]

theorem encodeIn_eq_ite {l : Layout} : s.encodeIn l =
    if l.codeLength > maxCodeLength then .error (.codeTooLong l.codeLength)
    else (do
      let pieces ← (l.zip s).mapM fun row =>
        row.2.bytes row.1.1 row.1.2.widened (l.distance row.1.1)
      return pieces.flatten) := by
  unfold encodeIn
  split <;> rfl

namespace Renames

variable (hr : Renames f s t)
include hr

theorem handles_eq : t.handles = s.handles.map f := by
  rw [handles, handles, hr, List.map_map, List.map_map]
  rfl

theorem injOn (ht : t.Linked) (hh : h ∈ s.handles) (hg : g ∈ s.handles) (he : f h = f g) :
    h = g := by
  have hn := ht.nodup
  rw [hr.handles_eq] at hn
  exact List.inj_on_of_nodup_map hn hh hg he

theorem handleAt?_position (k : Nat) : t.handleAt? k = (s.handleAt? k).map f := by
  have hk : t.items[k]? = s.items[k]?.map (renameItem f) := by
    rw [← Array.getElem?_toList, ← Array.getElem?_toList, ← toList, ← toList, hr, List.getElem?_map]
  rw [InstructionSeq.handleAt?, InstructionSeq.handleAt?, hk, Option.map_map, Option.map_map]
  rfl

theorem countP_isJump : t.items.countP (·.2.isJump) = s.items.countP (·.2.isJump) := by
  rw [← Array.countP_toList, ← Array.countP_toList, ← toList, ← toList, hr, List.countP_map]
  congr 1
  funext item
  exact Instruction.isJump_mapTargets

/-! ### One pass -/

section

variable (ha : Agrees f s wide wide')
include ha

theorem zip_eq : (widening t wide').zip t = ((widening s wide).zip s).map (renameRow f) := by
  rw [widening_zip, widening_zip, hr]
  exact rows_rename fun item hm => ha item.1 (List.mem_map_of_mem hm)

theorem codeLength_eq : (widening t wide').codeLength = (widening s wide).codeLength := by
  rw [codeLength, codeLength, widening_table, widening_table, WidthTable.ofList_extent,
    WidthTable.ofList_extent, hr, total_rename]
  exact fun item hm => ha item.1 (List.mem_map_of_mem hm)

variable (hs : s.Linked) (ht : t.Linked)
include hs ht

theorem offsetOf?_eq (hh : h ∈ s.handles) :
    (widening t wide').offsetOf? (f h) = (widening s wide).offsetOf? h := by
  obtain ⟨xs, i, ys, hl⟩ := exists_split hh
  have hl' : t.toList =
      xs.map (renameItem f) ++ (f h, i.mapTargets f) :: ys.map (renameItem f) := by
    rw [hr, hl, List.map_append, List.map_cons]
    rfl
  rw [widening_offsetOf? wide hs hl, widening_offsetOf? wide' ht hl', total_rename]
  intro item hm
  exact ha item.1 (List.mem_map_of_mem (hl ▸ List.mem_append_left _ hm))

theorem isWidened_eq (hh : h ∈ s.handles) :
    (widening t wide').isWidened (f h) = (widening s wide).isWidened h := by
  obtain ⟨xs, i, ys, hl⟩ := exists_split hh
  have hh' : f h ∈ t.handles := hr.handles_eq ▸ List.mem_map_of_mem hh
  obtain ⟨xs', i', ys', hl'⟩ := exists_split hh'
  rw [widening_isWidened wide hs hl, widening_isWidened wide' ht hl', ha h hh]

theorem handleAt?_eq (offset : Nat) :
    (widening t wide').handleAt? offset = ((widening s wide).handleAt? offset).map f := by
  apply Option.ext
  intro g
  rw [widening_handleAt? wide' ht, Option.map_eq_some_iff]
  simp only [widening_handleAt? wide hs]
  constructor
  · intro hg
    have hm : g ∈ t.handles := (offsetOf?_eq_some wide' ht).mp ⟨offset, hg⟩
    rw [hr.handles_eq] at hm
    obtain ⟨h, hh, rfl⟩ := List.mem_map.mp hm
    exact ⟨h, (hr.offsetOf?_eq ha hs ht hh).symm.trans hg, rfl⟩
  · rintro ⟨h, ho, rfl⟩
    exact (hr.offsetOf?_eq ha hs ht ((offsetOf?_eq_some wide hs).mp ⟨offset, ho⟩)).trans ho

theorem distance_eq (offset : Nat) (hh : h ∈ s.handles) :
    (widening t wide').distance offset (f h) = (widening s wide).distance offset h := by
  obtain ⟨there, ho, -⟩ := offsetOf?_of_mem wide hs hh
  have ho' := (hr.offsetOf?_eq ha hs ht hh).trans ho
  rw [Layout.distance, Layout.distance, ho, ho']

theorem oversized_eq :
    (widening t wide').oversized t = ((widening s wide).oversized s).map f := by
  rw [oversized, oversized, hr.zip_eq ha, List.filterMap_map, List.map_filterMap]
  refine List.filterMap_congr fun row hm => ?_
  obtain ⟨⟨offset, placed⟩, i⟩ := row
  rw [widening_zip] at hm
  have ho : (widening t wide').isOversized offset { placed with handle := f placed.handle }
      (i.mapTargets f) = (widening s wide).isOversized offset placed i :=
    isOversized_rename fun target htarget =>
      hr.offsetOf?_eq ha hs ht (hs.targets _ (mem_rows hm).1 target htarget)
  simp only [Function.comp_apply, renameRow, ho]
  split <;> rfl

theorem encodeIn_eq : t.encodeIn (widening t wide') = s.encodeIn (widening s wide) := by
  have hpieces : ((widening t wide').zip t).mapM (fun row =>
      row.2.bytes row.1.1 row.1.2.widened ((widening t wide').distance row.1.1)) =
        ((widening s wide).zip s).mapM (fun row =>
          row.2.bytes row.1.1 row.1.2.widened ((widening s wide).distance row.1.1)) := by
    rw [hr.zip_eq ha, List.mapM_map]
    refine Except.mapM_congr fun row hm => Instruction.bytes_mapTargets fun target htarget => ?_
    rw [widening_zip] at hm
    exact hr.distance_eq ha hs ht _ (hs.targets _ (mem_rows hm).1 target htarget)
  rw [encodeIn_eq_ite, encodeIn_eq_ite, hr.codeLength_eq ha, hpieces]

theorem agrees_insertMany : Agrees f s (wide.insertMany ((widening s wide).oversized s))
    (wide'.insertMany ((widening t wide').oversized t)) := by
  intro h hh
  rw [Std.HashSet.contains_insertMany_list, Std.HashSet.contains_insertMany_list, ha h hh,
    hr.oversized_eq ha hs ht]
  congr 1
  rw [Bool.eq_iff_iff, List.contains_iff_mem, List.contains_iff_mem]
  constructor
  · intro hm
    obtain ⟨g, hg, he⟩ := List.mem_map.mp hm
    obtain ⟨i, hi, -⟩ := oversized_jump hg
    -- different instructions of `t` have different handles
    rwa [← hr.injOn ht (List.mem_map_of_mem hi) hh he]
  · exact List.mem_map_of_mem

end

/-! ### All passes -/

theorem settle_eq (hs : s.Linked) (ht : t.Linked) (ha : Agrees f s wide wide') : ∃ wider wider',
    settle s n wide = widening s wider ∧ settle t n wide' = widening t wider' ∧
      Agrees f s wider wider' := by
  induction n generalizing wide wide' with
  | zero => exact ⟨wide, wide', rfl, rfl, ha⟩
  | succ n ih =>
    -- both end with this pass, or both widen what it has found
    have ho := hr.oversized_eq ha hs ht
    by_cases hnil : (widening s wide).oversized s = []
    · have hnil' : (widening t wide').oversized t = [] := by rw [ho, hnil, List.map_nil]
      exact ⟨wide, wide', settle_of_oversized _ hnil, settle_of_oversized _ hnil', ha⟩
    · have hne : (widening t wide').oversized t ≠ [] := by
        rw [ho]
        exact mt List.map_eq_nil_iff.mp hnil
      rw [settle_of_ne_nil n hnil, settle_of_ne_nil n hne]
      exact ih (hr.agrees_insertMany ha hs ht)

end Renames

/-- Reachable sequences that differ in their handles alone are as long as each other. The
instructions at the same position have the same offset, and both or neither of them is widened. What
writing them gives is the same, be it bytes or a fault. -/
theorem layout_encode_of_renames (hs : s.Reachable) (ht : t.Reachable) (hr : Renames f s t) :
    t.layout.codeLength = s.layout.codeLength ∧
    (∀ k h, s.handleAt? k = some h → t.handleAt? k = some (f h) ∧
      t.layout.offsetOf? (f h) = s.layout.offsetOf? h ∧
      t.layout.isWidened (f h) = s.layout.isWidened h) ∧
    (∀ offset, t.layout.handleAt? offset = (s.layout.handleAt? offset).map f) ∧
    t.encode = s.encode := by
  obtain ⟨wide, wide', hl, hl', ha⟩ :=
    hr.settle_eq (n := s.items.countP (·.2.isJump)) hs.linked ht.linked agrees_empty
  rw [← hr.countP_isJump] at hl'
  change s.layout = _ at hl
  change t.layout = _ at hl'
  rw [encode, encode, hl, hl']
  refine ⟨hr.codeLength_eq ha, ?_, hr.handleAt?_eq ha hs.linked ht.linked,
    hr.encodeIn_eq ha hs.linked ht.linked⟩
  intro k h hk
  have hh : h ∈ s.handles := by
    obtain ⟨item, hi, rfl⟩ := Option.map_eq_some_iff.mp hk
    rw [← Array.getElem?_toList] at hi
    exact List.mem_map_of_mem (List.mem_of_getElem? hi)
  refine ⟨?_, hr.offsetOf?_eq ha hs.linked ht.linked hh, hr.isWidened_eq ha hs.linked ht.linked hh⟩
  rw [hr.handleAt?_position, hk, Option.map_some]

/-- The loop once more. The jump has come into the slot of an instruction that is gone, which was
before the constant. -/
def reused : InstructionSeq :=
  ⟨#[(⟨1, 0⟩, .constant ⟨1⟩), (⟨0, 1⟩, .jump .goto ⟨1, 0⟩)], #[⟨1, true⟩, ⟨0, true⟩], []⟩

theorem reused_reachable : reused.Reachable := by
  have hfirst : (ofList [.simple .nop, .constant ⟨1⟩]).Reachable :=
    reachable_ofList (by decide) (by decide)
  have hremove : (ofList [.simple .nop, .constant ⟨1⟩]).remove ⟨0, 0⟩ = .ok (.simple .nop,
      ⟨#[(⟨1, 0⟩, .constant ⟨1⟩)], #[⟨1, false⟩, ⟨0, true⟩], [0]⟩) := by cbv
  have happend : append ⟨#[(⟨1, 0⟩, .constant ⟨1⟩)], #[⟨1, false⟩, ⟨0, true⟩], [0]⟩
      (.jump .goto ⟨1, 0⟩) = .ok (⟨0, 1⟩, reused) := by cbv
  have hgone : Reachable ⟨#[(⟨1, 0⟩, .constant ⟨1⟩)], #[⟨1, false⟩, ⟨0, true⟩], [0]⟩ :=
    .edit hfirst (e := .remove ⟨0, 0⟩) (Except.map_eq_ok.mpr ⟨_, hremove, rfl⟩) (by decide)
  exact .edit hgone (e := .append (.jump .goto ⟨1, 0⟩))
    (Except.map_eq_ok.mpr ⟨_, happend, rfl⟩) (by decide)

theorem layout_encode_of_renames_reused :
    Renames (fun h => if h = ⟨0, 0⟩ then ⟨1, 0⟩ else ⟨0, 1⟩) loop reused ∧
      reused.layout.offsetOf? ⟨0, 1⟩ = loop.layout.offsetOf? ⟨1, 0⟩ ∧
      reused.encode = .ok [0x12, 0x01, 0xa7, 0xff, 0xfe] := by
  have hr : Renames (fun h => if h = ⟨0, 0⟩ then ⟨1, 0⟩ else ⟨0, 1⟩) loop reused := rfl
  obtain ⟨-, hplaces, -, he⟩ := layout_encode_of_renames loop_reachable reused_reachable hr
  exact ⟨hr, (hplaces 1 ⟨1, 0⟩ rfl).2.1, he.trans loop_encode⟩

end InstructionSeq

end Classfile
