import Classfile.Proofs.Code.Order
import Classfile.Proofs.Draft.Refusal

/-!
What is left of the tables of a method when an instruction is removed. A range that is in order
covers a stretch of the instructions, and covers the rest of it afterwards. A line goes to the next
instruction, unless there is none, or it has a line of its own.
-/
namespace Classfile

open InstructionSeq

variable {d e : MethodDraft} {h gone : Handle} {r : Handle × Handle}

/-! ### Shrinking -/

/-- Without one of its instructions, a range that covers more covers the rest. -/
theorem Stretch.shrink {before after m : List Handle} {first last : Handle}
    (hn : (before ++ gone :: after).Nodup) (h : Stretch (before ++ gone :: after) m first last)
    (hm : m ≠ [gone]) :
    ∃ r, MethodDraft.shrink gone before.getLast? after.head? first last = some r ∧
      Stretch (before ++ after) (m.filter (· ≠ gone)) r.1 r.2 := by
  obtain ⟨hbetween, hfirst, hlast⟩ := h
  have hinfix := hbetween.filter (· ≠ gone)
  rw [filter_ne_middle hn] at hinfix
  unfold MethodDraft.shrink
  by_cases hg : gone ∈ m
  · obtain ⟨p, q, rfl⟩ := List.append_of_mem hg
    obtain ⟨front, back, hsplit⟩ := hbetween
    have hmid : (p ++ gone :: q).Nodup := (hsplit ▸ hn).sublist (List.infix_append ..).sublist
    have hpq : (front ++ p) ++ gone :: (q ++ back) = before ++ gone :: after := by
      simpa using hsplit
    obtain ⟨rfl, rfl⟩ := InOrder.split_unique hn hpq.symm
    rw [filter_ne_middle hmid] at hinfix ⊢
    have hgone := (List.nodup_cons.mp (List.nodup_middle.mp hmid)).1
    rw [List.mem_append, not_or] at hgone
    have hne : p ≠ [] ∨ q ≠ [] := by
      by_contra hnil
      rw [not_or, not_not, not_not] at hnil
      exact hm (by rw [hnil.1, hnil.2]; rfl)
    obtain ⟨hp, hhead⟩ := head?_without back hgone.1 hne hfirst
    -- The last instruction is the first one of the reversed list.
    have hlast' : (q.reverse ++ gone :: p.reverse).head? = some last := by
      rwa [List.getLast?_eq_head?_reverse, List.reverse_append, List.reverse_cons,
        List.append_assoc] at hlast
    obtain ⟨hq, hback⟩ := head?_without front.reverse (by simpa using hgone.2)
      (by simpa using hne.symm) hlast'
    rw [← List.reverse_append, ← List.reverse_append, ← List.getLast?_eq_head?_reverse,
      ← List.getLast?_eq_head?_reverse] at hback
    have hboth : ¬ (first = gone ∧ last = gone) := fun hb =>
      hne.elim (· (hp hb.1)) (· (List.reverse_eq_nil_iff.mp (hq hb.2)))
    exact ⟨_, if_neg hboth, hinfix, hhead, hback⟩
  · have hf : first ≠ gone := fun he => hg (he ▸ List.mem_of_head? hfirst)
    have hl : last ≠ gone := fun he => hg (he ▸ List.mem_of_getLast? hlast)
    have hself : m.filter (· ≠ gone) = m :=
      List.filter_eq_self.mpr fun x hx => decide_eq_true fun he => hg (he ▸ hx)
    rw [hself] at hinfix ⊢
    refine ⟨(first, last), ?_, hinfix, hfirst, hlast⟩
    simp only [hf, hl, false_and, if_false]

/-- Nothing is left of a range that covers only the instruction that goes. -/
theorem Stretch.shrink_eq_none {xs : List Handle} {prev next : Option Handle} {first last : Handle}
    (h : Stretch xs [gone] first last) : MethodDraft.shrink gone prev next first last = none := by
  cases h.head
  cases h.last
  exact if_pos ⟨rfl, rfl⟩

/-- When an instruction goes, what is left of a range that was in order is in order. -/
theorem InOrder.shrink {before after : List Handle} {first last : Handle}
    (hn : (before ++ gone :: after).Nodup) (ho : InOrder (before ++ gone :: after) first last)
    (hr : MethodDraft.shrink gone before.getLast? after.head? first last = some r) :
    InOrder (before ++ after) r.1 r.2 := by
  obtain ⟨m, hm⟩ := ho.exists_stretch
  have hne : m ≠ [gone] := by
    rintro rfl
    rw [hm.shrink_eq_none] at hr
    cases hr
  obtain ⟨left, hleft, hstretch⟩ := hm.shrink hn hne
  rw [hr] at hleft
  cases hleft
  exact hstretch.inOrder

namespace MethodDraft

/-! ### Lines -/

variable {next : Option Handle} {lines front back : List (Handle × UInt16)} {g : Handle}
  {number : UInt16}

/-- The lines of an instruction, in the order of the table. -/
def linesOf (lines : List (Handle × UInt16)) (h : Handle) : List UInt16 :=
  (lines.filter fun line => line.1 = h).map (·.2)

theorem linesOf_append : linesOf (front ++ back) g = linesOf front g ++ linesOf back g := by
  rw [linesOf, List.filter_append, List.map_append]
  rfl

theorem linesOf_cons : linesOf ((h, number) :: lines) g =
    (if h = g then [number] else []) ++ linesOf lines g := by
  by_cases hg : h = g <;> simp [linesOf, hg]

theorem linesOf_eq_nil : linesOf lines g = [] ↔ ∀ line ∈ lines, line.1 ≠ g := by
  rw [linesOf, List.map_eq_nil_iff, List.filter_eq_nil_iff]
  simp only [decide_eq_true_eq]

theorem linesOf_filter : linesOf (lines.filter (·.1 ≠ gone)) g =
    if g = gone then [] else linesOf lines g := by
  split
  · rename_i hg
    rw [hg, linesOf_eq_nil]
    intro line hm
    exact of_decide_eq_true (List.mem_filter.mp hm).2
  · rename_i hg
    rw [linesOf, linesOf, List.filter_filter]
    congr 2
    funext line
    grind

/-- Where no line moves, those of the instruction that goes are dropped. -/
theorem drop_lines {k position : Nat} (hp : ∀ x ∈ lines.zipIdx k, x.1.1 = gone → x.2 ≠ position) :
    (((lines.zipIdx k).filter fun (entry, i) => entry.1 ≠ gone ∨ i = position).map
      fun (entry, _) => if entry.1 = gone then (h, entry.2) else entry) =
        lines.filter (·.1 ≠ gone) := by
  induction lines generalizing k with
  | nil => rfl
  | cons line lines ih =>
    rw [List.zipIdx_cons, List.forall_mem_cons] at hp
    rw [List.zipIdx_cons]
    have hrest := ih hp.2
    by_cases hg : line.1 = gone
    · rw [List.filter_cons_of_neg (by simpa [hg] using hp.1 hg),
        List.filter_cons_of_neg (by simp [hg]), hrest]
    · rw [List.filter_cons_of_pos (by simp [hg]), List.filter_cons_of_pos (by simp [hg]),
        List.map_cons, hrest]
      dsimp only
      rw [if_neg hg]

/-- The first line of an instruction takes the next one as its own, and the others are dropped. -/
theorem moveLines_split (hn : linesOf (front ++ (gone, number) :: back) h = [])
    (hf : linesOf front gone = []) : moveLines gone (some h) (front ++ (gone, number) :: back) =
      front ++ (h, number) :: back.filter (·.1 ≠ gone) := by
  have hfront := linesOf_eq_nil.mp hf
  have hany : ¬ (front ++ (gone, number) :: back).any fun entry => entry.1 = h := by
    rw [List.any_eq_true]
    rintro ⟨line, hm, he⟩
    exact linesOf_eq_nil.mp hn line hm (of_decide_eq_true he)
  have hfirst : (front ++ (gone, number) :: back).findIdx? (fun entry => entry.1 = gone) =
      some front.length := by
    have hnone : front.findIdx? (fun entry => entry.1 = gone) = none :=
      List.findIdx?_eq_none_iff.mpr fun line hm => decide_eq_false (hfront line hm)
    simp [List.findIdx?_append, hnone, List.findIdx?_cons]
  have hself : front.filter (·.1 ≠ gone) = front :=
    List.filter_eq_self.mpr fun line hm => decide_eq_true (hfront line hm)
  rw [moveLines, if_neg hany, hfirst]
  dsimp only
  rw [List.zipIdx_append, List.zipIdx_cons, List.filter_append,
    List.filter_cons_of_pos (by simp), List.map_append, List.map_cons, if_pos rfl,
    drop_lines, drop_lines, hself]
  · intro x hx _
    have hle := List.le_snd_of_mem_zipIdx hx
    omega
  · intro x hx he
    exact absurd he (hfront x.1 (List.fst_mem_of_mem_zipIdx hx))

/-- Either the lines of the instruction that goes are dropped, as there is nothing to move or no
place for it, or the first of them becomes that of the next instruction. -/
theorem moveLines_cases (gone : Handle) (next : Option Handle) (lines : List (Handle × UInt16)) :
    (moveLines gone next lines = lines.filter (·.1 ≠ gone) ∧
      ∀ h, next = some h → linesOf lines h = [] → linesOf lines gone = []) ∨
    ∃ h number front back, next = some h ∧ linesOf lines h = [] ∧
      lines = front ++ (gone, number) :: back ∧ linesOf front gone = [] ∧
        moveLines gone next lines = front ++ (h, number) :: back.filter (·.1 ≠ gone) := by
  cases next with
  | none => exact .inl ⟨rfl, fun h hn => by cases hn⟩
  | some h =>
    by_cases hnil : linesOf lines h = []
    · cases hfind : lines.find? fun line => line.1 = gone with
      | none =>
        have hgone : ∀ line ∈ lines, line.1 ≠ gone := by
          simpa using List.find?_eq_none.mp hfind
        have hself : lines.filter (·.1 ≠ gone) = lines :=
          List.filter_eq_self.mpr fun line hm => decide_eq_true (hgone line hm)
        have hidx : lines.findIdx? (fun line => line.1 = gone) = none :=
          List.findIdx?_eq_none_iff.mpr fun line hm => decide_eq_false (hgone line hm)
        refine .inl ⟨?_, fun _ _ _ => linesOf_eq_nil.mpr hgone⟩
        rw [moveLines, hidx]
        dsimp only
        rw [hself, ite_self]
      | some line =>
        obtain ⟨hline, front, back, hsplit, hfront⟩ := List.find?_eq_some_iff_append.mp hfind
        obtain ⟨g, number⟩ := line
        cases of_decide_eq_true hline
        have hf : linesOf front g = [] := linesOf_eq_nil.mpr (by simpa using hfront)
        subst hsplit
        exact .inr ⟨h, number, front, back, rfl, hnil, rfl, hf, moveLines_split hnil hf⟩
    · have hany : lines.any fun entry => entry.1 = h := by
        rw [linesOf_eq_nil] at hnil
        push Not at hnil
        simpa using hnil
      refine .inl ⟨?_, fun g hn hg => ?_⟩
      · rw [moveLines, if_pos hany]
      · cases hn
        exact absurd hg hnil

/-- Every line in the moved table is one that was there, or the next instruction's. -/
theorem mem_moveLines {line : Handle × UInt16} (hm : line ∈ moveLines gone next lines) :
    (line ∈ lines ∧ line.1 ≠ gone) ∨ next = some line.1 := by
  rcases moveLines_cases gone next lines with ⟨he, -⟩ |
    ⟨h, number, front, back, hnext, -, rfl, hfront, he⟩
  · rw [he] at hm
    obtain ⟨hm, hne⟩ := List.mem_filter.mp hm
    exact .inl ⟨hm, of_decide_eq_true hne⟩
  · rw [he, List.mem_append, List.mem_cons] at hm
    rcases hm with hm | rfl | hm
    · exact .inl ⟨List.mem_append_left _ hm, linesOf_eq_nil.mp hfront line hm⟩
    · exact .inr hnext
    · obtain ⟨hm, hne⟩ := List.mem_filter.mp hm
      exact .inl ⟨List.mem_append_right _ (List.mem_cons_of_mem _ hm), of_decide_eq_true hne⟩

/-- What becomes of the lines of an instruction. -/
theorem linesOf_moveLines (hne : next ≠ some gone) :
    linesOf (moveLines gone next lines) g =
      if g = gone then []
      else if next = some g ∧ linesOf lines g = [] then (linesOf lines gone).take 1
      else linesOf lines g := by
  rcases moveLines_cases gone next lines with ⟨he, hnone⟩ |
    ⟨h, number, front, back, rfl, hnil, rfl, hfront, he⟩
  · rw [he, linesOf_filter]
    split
    · rfl
    · split
      · rename_i hg
        rw [hg.2, hnone g hg.1 hg.2]
        rfl
      · rfl
  · have hgone : gone ≠ h := fun hg => hne (congrArg some hg.symm)
    rw [linesOf_append, linesOf_cons, if_neg hgone, List.nil_append, List.append_eq_nil_iff] at hnil
    rw [he, linesOf_append, linesOf_cons, linesOf_filter, linesOf_append, linesOf_cons,
      linesOf_append, linesOf_cons, hfront]
    by_cases hg : g = gone
    · simp [hg, hfront, hgone.symm]
    · by_cases hh : h = g
      · subst hh
        simp [hg, hgone, hnil.1, hnil.2]
      · simp [hg, hh, Ne.symm hg]

/-! ### The draft that is left -/

variable {pool pool' : ConstantPool}

/-- A removal that is not refused, with the tables that are left. -/
theorem removeInstruction_eq_ok {i : Instruction Handle}
    (hr : MethodM.removeInstruction h (d, pool) = .ok i (e, pool')) :
    pool' = pool ∧ (∀ range ∈ d.handlers, range.handler ≠ h) ∧
    d.instructions.remove h = .ok (i, e.instructions) ∧
    e = { d with
      instructions := e.instructions
      lines := (moveLines h (d.instructions.next? h) d.lines.toList).toArray
      handlers := d.handlers.filterMap fun range =>
        (shrink h (d.instructions.prev? h) (d.instructions.next? h) range.first range.last).map
          fun (first, last) => { range with first, last }
      scopes := d.scopes.filterMap fun scope =>
        (shrink h (d.instructions.prev? h) (d.instructions.next? h) scope.first scope.last).map
          fun (first, last) => { scope with first, last }
      typeScopes := d.typeScopes.filterMap fun scope =>
        (shrink h (d.instructions.prev? h) (d.instructions.next? h) scope.first scope.last).map
          fun (first, last) => { scope with first, last } } := by
  rw [MethodM.removeInstruction, DraftM.draft_bind] at hr
  dsimp only at hr
  split at hr
  · cases hr
  · rename_i hany
    obtain ⟨removed, s, hs, hr⟩ := EStateM.bind_eq_ok.mp hr
    obtain ⟨instructions, hi, rfl⟩ := MethodM.onInstructions_eq_ok.mp hs
    cases hr
    refine ⟨rfl, fun range hm he => hany ?_, hi, rfl⟩
    exact List.any_eq_true.mpr ⟨range, hm, decide_eq_true he⟩

end MethodDraft

end Classfile
