import Classfile.Code.Arena
import Classfile.Proofs.Code.Edits

/-!
Slots that are linked in the order of some handles. Only the handles next to a slot matter for its
links, so that taking a piece out of the chain, or putting one in, is a matter of the two handles
around it.
-/
namespace Classfile

/-- What a handle can be told about a slot. -/
def ArenaSlot.shape (slot : ArenaSlot) : HandleSlot := ⟨slot.generation, slot.node.isSome⟩

namespace Arena

open InstructionSeq

variable {a b : Arena} {s : InstructionSeq} {h g : Handle} {i : Instruction Handle}
  {index : UInt32} {prev next link : Option UInt32} {xs ys mid old : List Handle}

/-- The slot of the first handle. -/
def firstIndex (handles : List Handle) : Option UInt32 := handles.head?.map (·.index)

/-- The slot of the last handle. -/
def lastIndex (handles : List Handle) : Option UInt32 := handles.getLast?.map (·.index)

/-- The links of what is in a slot. -/
def linksAt? (a : Arena) (index : UInt32) : Option (Option UInt32 × Option UInt32) :=
  (a.nodeAt? index).map fun node => (node.prev, node.next)

def instructionAt? (a : Arena) (index : UInt32) : Option (Instruction Handle) :=
  (a.nodeAt? index).map (·.instruction)

/-- The handles are linked in their order. -/
structure Chained (a : Arena) (handles : List Handle) : Prop where
  head : a.head = firstIndex handles
  tail : a.tail = lastIndex handles
  links : ∀ xs h ys, handles = xs ++ h :: ys →
    a.linksAt? h.index = some (lastIndex xs, firstIndex ys)

/-! ### Changing links -/

theorem change_nodeAt? {f : ArenaNode → ArenaNode} {k : UInt32} : (a.change index f).nodeAt? k =
    if index = k then (a.nodeAt? k).map f else a.nodeAt? k := by
  simp only [nodeAt?, change, Array.getElem?_modify, UInt32.toNat_inj]
  split
  · subst_vars
    cases a.slots[k.toNat]? <;> rfl
  · rfl

theorem change_shape {f : ArenaNode → ArenaNode} :
    (a.change index f).slots.map ArenaSlot.shape = a.slots.map ArenaSlot.shape := by
  apply Array.ext_getElem?
  intro k
  simp only [change, Array.getElem?_map, Array.getElem?_modify]
  split
  · cases a.slots[k]? with
    | none => rfl
    | some slot => simp [ArenaSlot.shape, ArenaSlot.change]
  · rfl

/-- The arena with another link leading on from `prev`. -/
def withNext (a : Arena) (prev next : Option UInt32) : Arena :=
  match prev with
  | some index => a.change index fun node => { node with next := next }
  | none => { a with head := next }

/-- The arena with another link leading back from `next`. -/
def withPrev (a : Arena) (next prev : Option UInt32) : Arena :=
  match next with
  | some index => a.change index fun node => { node with prev := prev }
  | none => { a with tail := prev }

/-- Two slots linked to whatever comes between them. -/
def relink (a : Arena) (prev next onward back : Option UInt32) : Arena :=
  (a.withNext prev onward).withPrev next back

variable {onward back : Option UInt32}

theorem withNext_linksAt? {p n : Option UInt32} (hl : a.linksAt? index = some (p, n)) :
    (a.withNext prev next).linksAt? index = some (p, if prev = some index then next else n) := by
  cases prev with
  | none => exact hl
  | some k =>
    obtain ⟨node, hn, he⟩ := Option.map_eq_some_iff.mp hl
    cases he
    simp only [withNext, linksAt?, change_nodeAt?, hn, Option.some.injEq]
    split <;> rfl

theorem withPrev_linksAt? {p n : Option UInt32} (hl : a.linksAt? index = some (p, n)) :
    (a.withPrev next prev).linksAt? index = some (if next = some index then prev else p, n) := by
  cases next with
  | none => exact hl
  | some k =>
    obtain ⟨node, hn, he⟩ := Option.map_eq_some_iff.mp hl
    cases he
    simp only [withPrev, linksAt?, change_nodeAt?, hn, Option.some.injEq]
    split <;> rfl

theorem relink_linksAt? {p n : Option UInt32} (hl : a.linksAt? index = some (p, n)) :
    (a.relink prev next onward back).linksAt? index =
      some (if next = some index then back else p, if prev = some index then onward else n) :=
  withPrev_linksAt? (withNext_linksAt? hl)

theorem change_instructionAt? {f : ArenaNode → ArenaNode}
    (hf : ∀ node, (f node).instruction = node.instruction) {k : UInt32} :
    (a.change index f).instructionAt? k = a.instructionAt? k := by
  simp only [instructionAt?, change_nodeAt?]
  split
  · cases a.nodeAt? k <;> simp [hf]
  · rfl

theorem withNext_instructionAt? :
    (a.withNext prev next).instructionAt? index = a.instructionAt? index := by
  cases prev with
  | none => rfl
  | some k => exact change_instructionAt? (f := fun node => { node with next := next }) fun _ => rfl

theorem withPrev_instructionAt? :
    (a.withPrev next prev).instructionAt? index = a.instructionAt? index := by
  cases next with
  | none => rfl
  | some k => exact change_instructionAt? (f := fun node => { node with prev := prev }) fun _ => rfl

theorem relink_instructionAt? :
    (a.relink prev next onward back).instructionAt? index = a.instructionAt? index := by
  rw [relink, withPrev_instructionAt?, withNext_instructionAt?]

theorem relink_shape : (a.relink prev next onward back).slots.map ArenaSlot.shape =
    a.slots.map ArenaSlot.shape := by
  cases prev <;> cases next <;> simp [relink, withNext, withPrev, change_shape]

theorem relink_free : (a.relink prev next onward back).free = a.free := by
  cases prev <;> cases next <;> rfl

theorem relink_size : (a.relink prev next onward back).size = a.size := by
  cases prev <;> cases next <;> rfl

/-! ### Chains -/

theorem split_append {α : Type} {xs ys us vs : List α} {x : α} (h : xs ++ ys = us ++ x :: vs) :
    (∃ ws, xs = us ++ x :: ws ∧ vs = ws ++ ys) ∨ (∃ ws, us = xs ++ ws ∧ ys = ws ++ x :: vs) := by
  rcases List.append_eq_append_iff.mp h with ⟨ws, rfl, hy⟩ | ⟨ws, rfl, hy⟩
  · exact .inr ⟨ws, rfl, hy⟩
  · cases ws with
    | nil => exact .inr ⟨[], by simp, by simpa using hy.symm⟩
    | cons w ws =>
      obtain ⟨rfl, rfl⟩ := List.cons.inj hy
      exact .inl ⟨ws, rfl, rfl⟩

theorem firstIndex_append (hx : xs ≠ []) : firstIndex (xs ++ ys) = firstIndex xs := by
  cases xs with
  | nil => exact absurd rfl hx
  | cons => rfl

theorem lastIndex_append (hy : ys ≠ []) : lastIndex (xs ++ ys) = lastIndex ys := by
  rw [lastIndex, List.getLast?_append_of_ne_nil _ hy, lastIndex]

theorem lastIndex_concat : lastIndex (xs ++ [h]) = some h.index := by
  simp [lastIndex]

theorem firstIndex_ne (hn : index ∉ xs.map (·.index)) : firstIndex xs ≠ some index := by
  intro he
  obtain ⟨h, hh, rfl⟩ := Option.map_eq_some_iff.mp he
  exact hn (List.mem_map_of_mem (List.mem_of_head? hh))

theorem lastIndex_ne (hn : index ∉ xs.map (·.index)) : lastIndex xs ≠ some index := by
  intro he
  obtain ⟨h, hh, rfl⟩ := Option.map_eq_some_iff.mp he
  exact hn (List.mem_map_of_mem (List.mem_of_getLast? hh))

/-- The handles around a piece of a chain are linked in their order, and the ends are known. Nothing
is said of the piece itself. -/
structure ChainedAround (a : Arena) (xs old ys : List Handle) : Prop where
  head : a.head = firstIndex (xs ++ (old ++ ys))
  tail : a.tail = lastIndex (xs ++ old ++ ys)
  before : ∀ us h vs, xs = us ++ h :: vs →
    a.linksAt? h.index = some (lastIndex us, firstIndex (vs ++ (old ++ ys)))
  behind : ∀ us h vs, ys = us ++ h :: vs →
    a.linksAt? h.index = some (lastIndex (xs ++ old ++ us), firstIndex vs)

theorem Chained.around (hc : a.Chained (xs ++ (old ++ ys))) : a.ChainedAround xs old ys where
  head := hc.head
  tail := by rw [hc.tail, List.append_assoc]
  before := by
    rintro us h vs rfl
    exact hc.links us h _ (by simp)
  behind := by
    rintro us h vs rfl
    exact hc.links _ h vs (by simp)

theorem ChainedAround.congr (hc : a.ChainedAround xs old ys) (hh : b.head = a.head)
    (ht : b.tail = a.tail) (hl : ∀ g ∈ xs ++ ys, b.linksAt? g.index = a.linksAt? g.index) :
    b.ChainedAround xs old ys where
  head := hh.trans hc.head
  tail := ht.trans hc.tail
  before := by
    intro us h vs he
    rw [hl h (by simp [he]), hc.before us h vs he]
  behind := by
    intro us h vs he
    rw [hl h (by simp [he]), hc.behind us h vs he]

theorem relink_head : (a.relink prev next onward back).head =
    if prev = none then onward else a.head := by
  cases prev <;> cases next <;> rfl

theorem relink_tail : (a.relink prev next onward back).tail =
    if next = none then back else a.tail := by
  cases prev <;> cases next <;> rfl

theorem lastIndex_eq_none : lastIndex xs = none ↔ xs = [] := by
  simp [lastIndex]

theorem firstIndex_eq_none : firstIndex xs = none ↔ xs = [] := by
  simp [firstIndex]

/-- Another piece takes the place of one. Its own links lead out of it already. -/
theorem ChainedAround.relink (hc : a.ChainedAround xs old ys)
    (hn : ((xs ++ (mid ++ ys)).map (·.index)).Nodup)
    (hm : ∀ us h vs, mid = us ++ h :: vs →
      a.linksAt? h.index = some (lastIndex (xs ++ us), firstIndex (vs ++ ys))) :
    (a.relink (lastIndex xs) (firstIndex ys) (firstIndex (mid ++ ys))
      (lastIndex (xs ++ mid))).Chained (xs ++ (mid ++ ys)) where
  head := by
    rw [relink_head]
    by_cases hx : xs = []
    · subst hx
      rfl
    · rw [if_neg (mt lastIndex_eq_none.mp hx), hc.head, firstIndex_append hx, firstIndex_append hx]
  tail := by
    rw [relink_tail]
    by_cases hy : ys = []
    · subst hy
      rw [List.append_nil]
      rfl
    · rw [if_neg (mt firstIndex_eq_none.mp hy), hc.tail, lastIndex_append hy, ← List.append_assoc,
        lastIndex_append hy]
  links := by
    intro us h vs he
    have hd : h.index ∉ (us ++ vs).map (·.index) := by
      rw [he, (List.perm_middle.map _).nodup_iff] at hn
      exact (List.nodup_cons.mp hn).1
    rcases split_append he with ⟨ws, rfl, rfl⟩ | ⟨ws, rfl, hr⟩
    · -- Before the piece only the last handle gets another link.
      simp only [List.map_append, List.mem_append, not_or] at hd
      rw [relink_linksAt? (hc.before us h ws rfl), if_neg (firstIndex_ne hd.2.2.2)]
      cases ws with
      | nil =>
        rw [if_pos lastIndex_concat]
        rfl
      | cons w ws =>
        rw [List.append_cons us h, lastIndex_append (List.cons_ne_nil w ws),
          if_neg (lastIndex_ne hd.2.1)]
        rfl
    · rcases split_append hr with ⟨ws', rfl, rfl⟩ | ⟨ws', rfl, rfl⟩
      · simp only [List.map_append, List.mem_append, not_or] at hd
        rw [relink_linksAt? (hm ws h ws' rfl), if_neg (firstIndex_ne hd.2.2),
          if_neg (lastIndex_ne hd.1.1)]
      · -- Behind the piece only the first one does.
        simp only [List.map_append, List.mem_append, not_or] at hd
        rw [relink_linksAt? (hc.behind ws' h vs rfl), if_neg (lastIndex_ne hd.1.1)]
        cases ws' with
        | nil =>
          have hf : firstIndex ([] ++ h :: vs) = some h.index := rfl
          rw [if_pos hf, List.append_nil]
        | cons w ws =>
          have hw : firstIndex (w :: ws ++ h :: vs) ≠ some h.index := by
            rw [firstIndex_append (List.cons_ne_nil w ws)]
            exact firstIndex_ne hd.1.2.2
          rw [if_neg hw, lastIndex_append (List.cons_ne_nil w ws), ← List.append_assoc,
            lastIndex_append (List.cons_ne_nil w ws)]

end Arena

end Classfile
