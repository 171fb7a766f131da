import Mathlib.Algebra.GroupWithZero.Nat
import Mathlib.Data.List.Induction
import Classfile.Proofs.Arena.Change
import Classfile.Proofs.Code.Order

/-!
Runs of edits on the arena. No link is ever broken, and the arena always shows a plain sequence, the
one that the same edits make.
-/
namespace Classfile

open InstructionSeq

/-- What an edit that is not refused does to a plain sequence, and what it answers. -/
inductive Effect (xs : List (Handle × Instruction Handle)) :
    Edit → Answer → List (Handle × Instruction Handle) → Prop
  | append {h : Handle} {i : Instruction Handle} (hh : h ∉ xs.map (·.1)) :
    Effect xs (.append i) (.handle h) (xs ++ [(h, i)])
  | insertBefore {before after : List (Handle × Instruction Handle)} {g h : Handle}
    {i j : Instruction Handle} (hx : xs = before ++ (g, j) :: after) (hh : h ∉ xs.map (·.1)) :
    Effect xs (.insertBefore g i) (.handle h) (before ++ (h, i) :: (g, j) :: after)
  | insertAfter {before after : List (Handle × Instruction Handle)} {g h : Handle}
    {i j : Instruction Handle} (hx : xs = before ++ (g, j) :: after) (hh : h ∉ xs.map (·.1)) :
    Effect xs (.insertAfter g i) (.handle h) (before ++ (g, j) :: (h, i) :: after)
  | remove {before after : List (Handle × Instruction Handle)} {h : Handle}
    {i : Instruction Handle} (hx : xs = before ++ (h, i) :: after) :
    Effect xs (.remove h) (.instruction i) (before ++ after)
  | replace {before after : List (Handle × Instruction Handle)} {h : Handle}
    {i j : Instruction Handle} (hx : xs = before ++ (h, j) :: after) :
    Effect xs (.replace h i) (.instruction j) (before ++ (h, i) :: after)
  | setTarget {before after : List (Handle × Instruction Handle)} {h target : Handle}
    {i j : Instruction Handle} (hx : xs = before ++ (h, j) :: after)
    (hj : j.setTarget? target = some i) :
    Effect xs (.setTarget h target) (.hasTarget true) (before ++ (h, i) :: after)
  | noTarget {h target : Handle} {i : Instruction Handle} (hi : (h, i) ∈ xs)
    (hj : i.setTarget? target = none) :
    Effect xs (.setTarget h target) (.hasTarget false) xs
  | redirect {old new : Handle} :
    Effect xs (.redirect old new) (.count ((xs.flatMap (·.2.targets)).count old))
      (xs.map fun (h, i) => (h, i.mapTargets fun t => if t = old then new else t))

namespace InstructionSeq

variable {s t : InstructionSeq} {e : Edit} {answer : Answer} {edits : List Edit} {h : Handle}
  {i : Instruction Handle} {n : Nat}

theorem freshHandle_notMem (hs : s.Linked) (hroom : s.slots.size < UInt32.size) :
    s.freshHandle ∉ s.toList.map (·.1) := by
  intro hm
  have hc := (place_contains (n := 0) (i := .simple .nop) hs (place_room hroom)).1
  rw [(hs.live _).mpr hm] at hc
  cases hc

theorem perform_eq_ok {α : Type} {x : Except Fault (α × InstructionSeq)} {f : α → Answer}
    (he : Prod.map f id <$> x = .ok (answer, t)) : ∃ v, x = .ok (v, t) ∧ f v = answer := by
  cases x with
  | error fault => cases he
  | ok y =>
    cases he
    exact ⟨y.1, rfl, rfl⟩

/-- Where an instruction is put, a new handle and the instruction stand afterwards. -/
theorem place_effect {before after : List (Handle × Instruction Handle)} {r : InstructionSeq}
    (hl : s.toList = before ++ after) (hp : (h, r) = s.place before.length i) :
    h = s.freshHandle ∧ r.toList = before ++ (h, i) :: after := by
  have hh : h = s.freshHandle := (congrArg Prod.fst hp).trans place_handle
  have hr : r = (s.place before.length i).2 := congrArg Prod.snd hp
  exact ⟨hh, by rw [hr, place_between hl, hh]⟩

theorem effect_of_perform (hs : s.Linked) (hroom : s.slots.size < UInt32.size)
    (he : s.perform e = .ok (answer, t)) : Effect s.toList e answer t.toList := by
  have hf := freshHandle_notMem hs hroom
  cases e with
  | append i =>
    obtain ⟨h, hr, rfl⟩ := perform_eq_ok he
    obtain ⟨rfl, ht⟩ := place_effect (List.append_nil s.toList).symm (append_eq_ok hr).2
    exact ht ▸ .append hf
  | insertBefore g i =>
    obtain ⟨h, hr, rfl⟩ := perform_eq_ok he
    obtain ⟨before, j, after, hl, -, hp⟩ := insertBefore_eq_ok hr
    obtain ⟨rfl, ht⟩ := place_effect hl hp
    exact ht ▸ .insertBefore hl hf
  | insertAfter g i =>
    obtain ⟨h, hr, rfl⟩ := perform_eq_ok he
    obtain ⟨before, j, after, hl, -, hp⟩ := insertAfter_eq_ok hr
    have hl' : s.toList = (before ++ [(g, j)]) ++ after := by rw [hl, List.append_cons]
    rw [← List.length_singleton (a := (g, j)), ← List.length_append] at hp
    obtain ⟨rfl, ht⟩ := place_effect hl' hp
    rw [List.append_assoc, List.singleton_append] at ht
    exact ht ▸ .insertAfter hl hf
  | remove h =>
    obtain ⟨i, hr, rfl⟩ := perform_eq_ok he
    obtain ⟨-, before, j, after, hl, -, hp⟩ := remove_eq_ok hr
    cases hp
    rw [erase_between hl]
    exact .remove hl
  | replace h i =>
    obtain ⟨j, hr, rfl⟩ := perform_eq_ok he
    obtain ⟨-, before, k, after, hl, -, hp⟩ := replace_eq_ok hr
    cases hp
    rw [set_between hl]
    exact .replace hl
  | setTarget h target =>
    obtain ⟨found, hr, rfl⟩ := perform_eq_ok he
    obtain ⟨-, -, before, j, after, hl, ⟨hj, hp⟩ | ⟨k, hk, hp⟩⟩ := setTarget_eq_ok hr
    · cases hp
      exact .noTarget (by rw [hl]; simp) hj
    · cases hp
      rw [set_between hl]
      exact .setTarget hl hk
  | redirect old new =>
    obtain ⟨count, hr, rfl⟩ := perform_eq_ok he
    obtain ⟨-, hp⟩ := redirect_eq_ok hr
    cases hp
    rw [toList, toList, Array.toList_map]
    exact .redirect

theorem size_le_after : s.slots.size ≤ (s.after e).slots.size := by
  cases he : s.edit e with
  | ok t =>
    rw [after_of_ok he]
    exact (step_of_edit he).size_le.1
  | error fault =>
    simp [after_of_error he]

theorem size_le_run : s.slots.size ≤ (s.run edits).slots.size := by
  induction edits generalizing s with
  | nil => exact Nat.le_refl _
  | cons e edits ih => exact Nat.le_trans size_le_after ih

theorem linked_after (hs : s.Linked) (hc : (s.after e).slots.size ≤ UInt32.size) :
    (s.after e).Linked := by
  cases he : s.edit e with
  | ok t =>
    rw [after_of_ok he] at hc ⊢
    exact linked_edit hs he hc
  | error fault =>
    rw [after_of_error he]
    exact hs

end InstructionSeq

namespace ArenaM

variable {α β : Type} {a : Arena} {s : InstructionSeq} {e : Edit}

/-- An edit of the arena, with its answer. -/
def perform : Edit → ArenaM Answer
  | .append i => .handle <$> append i
  | .insertBefore h i => .handle <$> insertBefore h i
  | .insertAfter h i => .handle <$> insertAfter h i
  | .remove h => .instruction <$> remove h
  | .replace h i => .instruction <$> replace h i
  | .setTarget h target => .hasTarget <$> setTarget h target
  | .redirect old new => .count <$> redirect old new

theorem Refines.map {x : ArenaM α} {r : Except Fault (α × InstructionSeq)} (f : α → β)
    (h : Refines x a r Follows) : Refines (f <$> x) a (Prod.map f id <$> r) Follows := by
  cases r with
  | error fault =>
    change EStateM.map f x a = _
    rw [EStateM.map, h]
  | ok y =>
    obtain ⟨v, b, hv, rfl, hb⟩ := h
    refine ⟨f y.1, b, ?_, rfl, hb⟩
    change EStateM.map f x a = _
    rw [EStateM.map, hv]

theorem refines_perform (hr : a.Represents s) (hs : s.Linked)
    (hroom : s.slots.size < UInt32.size) : Refines (perform e) a (s.perform e) Follows := by
  cases e with
  | append i => exact (refines_append hr hs hroom).map _
  | insertBefore h i => exact (refines_insertBefore hr hs hroom).map _
  | insertAfter h i => exact (refines_insertAfter hr hs hroom).map _
  | remove h => exact (refines_remove hr hs).map _
  | replace h i => exact (refines_replace hr hs).map _
  | setTarget h target => exact (refines_setTarget hr hs).map _
  | redirect old new => exact (refines_redirect hr hs).map _

end ArenaM

namespace Arena

variable {a : Arena} {s : InstructionSeq} {e : Edit} {edits : List Edit}

/-- The arena after an edit that may have been refused. There is none if a link is broken. -/
def after? (a : Arena) (e : Edit) : Option Arena :=
  match ArenaM.perform e a with
  | .ok _ b => some b
  | .error (.refused _) b => some b
  | .error .broken _ => none

def run? (a : Arena) (edits : List Edit) : Option Arena := edits.foldlM after? a

theorem Represents.after? (hr : a.Represents s) (hs : s.Linked)
    (hroom : s.slots.size < UInt32.size) :
    ∃ b, a.after? e = some b ∧ b.Represents (s.after e) := by
  have hp := ArenaM.refines_perform (e := e) hr hs hroom
  cases he : s.perform e with
  | ok y =>
    rw [he] at hp
    obtain ⟨v, b, hv, -, hb⟩ := hp
    rw [Arena.after?, hv, InstructionSeq.after, edit_eq_perform, he]
    exact ⟨b, rfl, hb⟩
  | error fault =>
    rw [he] at hp
    unfold Arena.after? InstructionSeq.after
    rw [hp, edit_eq_perform, he]
    exact ⟨a, rfl, hr⟩

theorem Represents.run? (hr : a.Represents s) (hs : s.Linked)
    (hroom : (s.run edits).slots.size < UInt32.size) :
    ∃ b, a.run? edits = some b ∧ b.Represents (s.run edits) ∧ (s.run edits).Linked := by
  induction edits generalizing a s with
  | nil => exact ⟨a, rfl, hr, hs⟩
  | cons e edits ih =>
    rw [run_cons] at hroom ⊢
    have hafter := Nat.lt_of_le_of_lt size_le_run hroom
    obtain ⟨b, hb, hrb⟩ := hr.after? hs (Nat.lt_of_le_of_lt size_le_after hafter)
    obtain ⟨c, hc, hrc⟩ := ih hrb (linked_after hs (Nat.le_of_lt hafter)) hroom
    exact ⟨c, by rw [Arena.run?, List.foldlM_cons, hb]; exact hc, hrc⟩

/-- What the arena gives up, the sequence does. -/
theorem Represents.edit_of_remove {b : Arena} {h : Handle} {i : Instruction Handle}
    (hr : a.Represents s) (hs : s.Linked) (hi : ArenaM.remove h a = .ok i b) :
    ∃ t, s.edit (.remove h) = .ok t := by
  have hp := ArenaM.refines_remove (h := h) hr hs
  cases hrem : s.remove h with
  | error fault =>
    rw [hrem, ArenaM.Refines.eq_def] at hp
    simp only [hi] at hp
    cases hp
  | ok r => exact ⟨r.2, by rw [edit, hrem]; rfl⟩

/-- Everything that can be asked of the arena is answered from a plain sequence, and no link is
broken. -/
structure Shows (a : Arena) (xs : List (Handle × Instruction Handle)) : Prop where
  distinct : (xs.map (·.1)).Nodup
  items : a.items = some xs
  back : a.handlesBack (xs.getLast?.map (·.1)) = some (xs.map (·.1)).reverse
  size : a.size = xs.length
  first : a.first = some (xs.head?.map (·.1))
  last : a.last = some (xs.getLast?.map (·.1))
  contains : ∀ h, a.contains h ↔ h ∈ xs.map (·.1)
  present : ∀ before h i after, xs = before ++ (h, i) :: after → a.get? h = some i ∧
    a.prev h = some (before.getLast?.map (·.1)) ∧ a.next h = some (after.head?.map (·.1))
  absent : ∀ h, h ∉ xs.map (·.1) → a.get? h = none ∧ a.prev h = some none ∧ a.next h = some none

theorem Represents.shows (hr : a.Represents s) (hs : s.Linked) : a.Shows s.toList where
  distinct := hs.nodup
  items := hr.items_eq hs
  back := hr.handlesBack hs (List.append_nil _).symm
  size := hr.size
  first := by
    rw [Arena.first, hr.chained.head, hr.follow_firstIndex fun h hh => (hs.live h).mpr hh,
      handles, List.head?_map]
  last := by
    rw [Arena.last, hr.chained.tail, hr.follow_lastIndex fun h hh => (hs.live h).mpr hh,
      handles, List.getLast?_map]
  contains h := by rw [hr.contains_eq, hs.live, handles]
  present := by
    intro before h i after hl
    have hlive : ∀ g ∈ before.map (·.1) ++ h :: after.map (·.1), s.contains g := by
      intro g hg
      rwa [hs.live, handles, hl, List.map_append]
    have hc : s.contains h := hlive h (by simp)
    have hn := (hr.node?_eq hc).trans (hr.nodeAt? hl)
    refine ⟨?_, ?_, ?_⟩
    · rw [Arena.get?, hn, Option.map_some]
    · rw [Arena.prev, hn, Option.bind_some,
        hr.follow_lastIndex fun g hg => hlive g (List.mem_append_left _ hg), List.getLast?_map]
    · rw [Arena.next, hn, Option.bind_some,
        hr.follow_firstIndex fun g hg => hlive g (by simp [hg]), List.head?_map]
  absent := by
    intro h hh
    have hc : s.contains h = false := by
      rw [← Bool.not_eq_true, hs.live]
      exact hh
    have hn := hr.node?_eq_none hc
    exact ⟨by rw [Arena.get?, hn]; rfl, by rw [Arena.prev, hn]; rfl, by rw [Arena.next, hn]; rfl⟩

/-- The arena gives the answers of the sequence that it stands for. -/
structure Agrees (a : Arena) (s : InstructionSeq) : Prop where
  items : a.items = some s.toList
  slots : a.slots.size = s.slots.size
  size : a.size = s.size
  first : a.first = some s.first?
  last : a.last = some s.last?
  contains : ∀ h, a.contains h = s.contains h
  get : ∀ h, a.get? h = s.get? h
  prev : ∀ h, a.prev h = some (s.prev? h)
  next : ∀ h, a.next h = some (s.next? h)

theorem Represents.agrees (hr : a.Represents s) (hs : s.Linked) : a.Agrees s := by
  have hshows := hr.shows hs
  have hqueries : ∀ h, a.get? h = s.get? h ∧ a.prev h = some (s.prev? h) ∧
      a.next h = some (s.next? h) := by
    intro h
    by_cases hh : h ∈ s.handles
    · obtain ⟨⟨g, i⟩, hm, rfl⟩ := List.mem_map.mp hh
      obtain ⟨before, after, hl⟩ := List.append_of_mem hm
      rw [get?_of_split hs hl, prev?_of_split hs hl, next?_of_split hs hl]
      exact hshows.present before g i after hl
    · have hp : s.position? h = none := by
        rw [position?_eq, if_neg (mt (hs.live h).mp hh)]
      have hg : s.get? h = none ∧ s.prev? h = none ∧ s.next? h = none := by
        simp [InstructionSeq.get?, prev?, next?, hp]
      rw [hg.1, hg.2.1, hg.2.2]
      exact hshows.absent h hh
  refine ⟨hshows.items, ?_, hr.size, ?_, ?_, fun h => hr.contains_eq,
    fun h => (hqueries h).1, fun h => (hqueries h).2.1, fun h => (hqueries h).2.2⟩
  · rw [hr.slots, Array.size_map]
  · rw [hshows.first, first?, handleAt?_eq, List.head?_eq_getElem?]
  · rw [hshows.last, last?, ← Array.getLast?_toList]
    rfl

/-- A handle that was removed stays dead while generations last. -/
theorem not_contains_of_removed {t : InstructionSeq} {h : Handle} {n : Nat} (hy : s.Young n)
    (he : s.edit (.remove h) = .ok t) (hn : n + 1 + t.removals edits < UInt32.size) :
    ¬ (t.run edits).contains h := by
  have ht : t.Young (n + 1) ∧ t.Outgrown h := by
    obtain ⟨r, hr, rfl⟩ := Except.map_eq_ok.mp he
    obtain ⟨hc, xs, j, ys, hl, -, rfl⟩ := remove_eq_ok hr
    exact ⟨young_retired hc hy, outgrown_retired hy (by omega) hc⟩
  refine (run_invariant (P := fun u m => u.Young m ∧ u.Outgrown h) ?_ ht hn).2.not_contains
  rintro u v m e ⟨hy, ho⟩ he hm
  exact ⟨(step_of_edit he).young hy, (step_of_edit he).outgrown hy hm ho⟩

theorem young_run (hn : InstructionSeq.empty.removals edits < UInt32.size) :
    (InstructionSeq.empty.run edits).Young (InstructionSeq.empty.removals edits) := by
  have hempty : InstructionSeq.empty.Young 0 := by simp [Young, InstructionSeq.empty]
  rw [← Nat.zero_add (InstructionSeq.empty.removals edits)] at hn ⊢
  exact run_invariant (fun _ _ _ _ hy he _ => (step_of_edit he).young hy) hempty hn

/-- Runs of edits on the arena are runs of edits on a plain sequence. No link is ever broken, every
further edit has the outcome that it has for the sequence, and a handle that was removed is never
live again. -/
theorem run_refines (hslots : (InstructionSeq.empty.run edits).slots.size < 2 ^ 32)
    (hremovals : InstructionSeq.empty.removals edits < 2 ^ 32) :
    ∃ a, empty.run? edits = some a ∧ a.Shows (InstructionSeq.empty.run edits).toList ∧
      a.Agrees (InstructionSeq.empty.run edits) ∧
      (∀ e, match (InstructionSeq.empty.run edits).perform e with
        | .ok (answer, t) => Effect (InstructionSeq.empty.run edits).toList e answer t.toList ∧
            ∃ b, ArenaM.perform e a = .ok answer b ∧ b.Shows t.toList ∧ b.Agrees t
        | .error fault => ArenaM.perform e a = .error (.refused fault) a) ∧
      ∀ before h after b c i, edits = before ++ .remove h :: after →
        empty.run? before = some b → ArenaM.remove h b = .ok i c → a.contains h = false := by
  obtain ⟨a, ha, hr, hs⟩ := represents_empty.run? linked_empty hslots
  refine ⟨a, ha, hr.shows hs, hr.agrees hs, ?_, ?_⟩
  · intro e
    have hp := ArenaM.refines_perform (e := e) hr hs hslots
    split
    · rename_i answer t he
      rw [he] at hp
      obtain ⟨v, b, hv, rfl, hb⟩ := hp
      have ht : (InstructionSeq.empty.run edits).edit e = .ok t := by
        rw [edit_eq_perform, he]
        rfl
      have hc := (step_of_edit ht).size_le.2
      have hlinked := linked_edit hs ht (Nat.le_trans hc hslots)
      exact ⟨effect_of_perform hs hslots he, b, hv, hb.shows hlinked, hb.agrees hlinked⟩
    · rename_i fault he
      rw [he] at hp
      exact hp
  · rintro before h after b c i rfl hb hi
    rw [run_append] at hslots hr
    rw [removals_append, removals] at hremovals
    obtain ⟨b', hb', hrb, hsb⟩ := represents_empty.run? linked_empty
      (Nat.lt_of_le_of_lt size_le_run hslots)
    rw [hb] at hb'
    cases hb'
    obtain ⟨t, he⟩ := hrb.edit_of_remove hsb hi
    rw [run_cons, after_of_ok he] at hr
    rw [he] at hremovals
    simp only [Edit.cost] at hremovals
    have hsize : UInt32.size = 2 ^ 32 := rfl
    rw [hr.contains_eq, ← Bool.not_eq_true]
    exact not_contains_of_removed (young_run (by omega)) he (by omega)

/-- A jump comes and goes, and its slot is used again. -/
def reuse : List Edit := [
  .append (.simple .nop), .append (.jump .goto ⟨0, 0⟩), .remove ⟨1, 0⟩,
  .append (.simple .returnVoid)]

theorem run_refines_reuse : ∃ a, empty.run? reuse = some a ∧
    a.Shows [(⟨0, 0⟩, .simple .nop), (⟨1, 1⟩, .simple .returnVoid)] ∧
      a.contains ⟨1, 0⟩ = false := by
  have hslots : (InstructionSeq.empty.run reuse).slots.size < 2 ^ 32 := by decide +kernel
  have hremovals : InstructionSeq.empty.removals reuse < 2 ^ 32 := by decide +kernel
  have hl : (InstructionSeq.empty.run reuse).toList =
    [(⟨0, 0⟩, .simple .nop), (⟨1, 1⟩, .simple .returnVoid)] := by decide +kernel
  obtain ⟨a, ha, hshows, -⟩ := run_refines hslots hremovals
  rw [hl] at hshows
  refine ⟨a, ha, hshows, ?_⟩
  rw [← Bool.not_eq_true, hshows.contains]
  decide

end Arena

end Classfile
