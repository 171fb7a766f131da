import Classfile.Proofs.Arena.Represents

/-!
Instructions come into the arena and go out of it as they do in the sequence. An operation that is
refused has not changed anything yet, since whatever can be refused is asked for first.
-/
namespace Classfile

open InstructionSeq Arena

variable {α β γ δ : Type} {a b : Arena} {s : InstructionSeq} {h g : Handle}
  {i : Instruction Handle} {index : UInt32} {prev next : Option UInt32} {xs ys : List Handle}

namespace ArenaM

/-- The operation ends like a computation about the sequence, and it keeps the arena if it is
refused. -/
def Refines (x : ArenaM α) (a : Arena) (r : Except Fault β) (post : α → Arena → β → Prop) : Prop :=
  match r with
  | .ok y => ∃ v b, x a = .ok v b ∧ post v b y
  | .error fault => x a = .error (.refused fault) a

variable {x : ArenaM α} {r : Except Fault β} {post : γ → Arena → δ → Prop} {v : α}

theorem get_bind (f : Arena → ArenaM α) : (get >>= f) a = f a a := rfl

theorem ask_of_some {f : Arena → Option α} (hf : f a = some v) : ask f a = .ok v a := by
  rw [ask, hf]

/-- The operation only asks. -/
def Asks (x : ArenaM α) (a : Arena) (r : Except Fault β) (P : α → β → Prop) : Prop :=
  Refines x a r fun v b y => b = a ∧ P v y

/-- Questions come before the rest of an operation. -/
theorem Asks.bind {P : α → β → Prop} {f : α → ArenaM γ} {k : β → Except Fault δ}
    (hx : Asks x a r P) (hf : ∀ v y, r = .ok y → P v y → Refines (f v) a (k y) post) :
    Refines (x >>= f) a (r >>= k) post := by
  cases r with
  | error fault => exact EStateM.bind_of_error hx
  | ok y =>
    obtain ⟨v, b, hv, rfl, hp⟩ := hx
    have hk := hf v y rfl hp
    rw [Except.ok_bind]
    unfold Refines at hk ⊢
    rw [EStateM.bind_of_ok hv]
    exact hk

theorem asks_checkLive (hr : a.Represents s) :
    Asks (checkLive h) a (s.checkLive h) fun _ _ => True := by
  have hc := hr.contains_eq (h := h)
  rw [InstructionSeq.checkLive, ← hc]
  unfold checkLive Asks Refines
  rw [get_bind]
  cases a.contains h with
  | true => exact ⟨(), a, rfl, rfl, trivial⟩
  | false => rfl

theorem asks_checkTargets (hr : a.Represents s) :
    Asks (checkTargets i) a (s.checkTargets i) fun _ _ => True := by
  rw [checkTargets, InstructionSeq.checkTargets]
  induction i.targets with
  | nil => exact ⟨(), a, rfl, rfl, trivial⟩
  | cons t targets ih => exact (asks_checkLive hr).bind fun _ _ _ _ => ih

/-- The node of an instruction knows its neighbours. -/
theorem asks_node (hr : a.Represents s) (hs : s.Linked) :
    Asks (node h) a (s.position h) fun node n => ∃ items j more,
      s.toList = items ++ (h, j) :: more ∧ items.length = n ∧
        node.prev = lastIndex (items.map (·.1)) ∧ node.next = firstIndex (more.map (·.1)) := by
  unfold node Asks Refines
  rw [get_bind]
  cases hp : s.position? h with
  | some n =>
    obtain ⟨hc, items, i, more, hl, hn, -⟩ := split_of_position? hp
    rw [position_eq_ok.mpr hp, hr.node?_eq hc, hr.nodeAt? hl]
    exact ⟨_, a, rfl, rfl, items, i, more, hl, hn, rfl, rfl⟩
  | none =>
    rw [InstructionSeq.position, hp, hr.node?_eq_none (contains_of_position? hs hp)]
    rfl

/-! ### Links -/

theorem modifyNode_run {f : ArenaNode → ArenaNode} {node : ArenaNode}
    (hn : a.nodeAt? index = some node) : modifyNode index f a = .ok node (a.change index f) := by
  rw [modifyNode, hn]

theorem linkNext_run (hp : ∀ k, prev = some k → ∃ node, a.nodeAt? k = some node) :
    linkNext prev next a = .ok () (a.withNext prev next) := by
  cases prev with
  | none => rfl
  | some k =>
    obtain ⟨node, hn⟩ := hp k rfl
    exact EStateM.bind_of_ok (modifyNode_run hn)

theorem linkPrev_run (hn : ∀ k, next = some k → ∃ node, a.nodeAt? k = some node) :
    linkPrev next prev a = .ok () (a.withPrev next prev) := by
  cases next with
  | none => rfl
  | some k =>
    obtain ⟨node, hn⟩ := hn k rfl
    exact EStateM.bind_of_ok (modifyNode_run hn)

theorem relink_run {onward back : Option UInt32} {f : Unit → ArenaM α}
    (hp : ∀ k, prev = some k → ∃ links, a.linksAt? k = some links)
    (hn : ∀ k, next = some k → ∃ links, a.linksAt? k = some links) :
    (linkNext prev onward >>= fun _ => linkPrev next back >>= f) a =
      f () (a.relink prev next onward back) := by
  have hnode : ∀ {b : Arena} {k}, (∃ links, b.linksAt? k = some links) →
      ∃ node, b.nodeAt? k = some node := by
    rintro b k ⟨links, hl⟩
    obtain ⟨node, hn, -⟩ := Option.map_eq_some_iff.mp hl
    exact ⟨node, hn⟩
  rw [EStateM.bind_of_ok (linkNext_run fun k hk => hnode (hp k hk)),
    EStateM.bind_of_ok (linkPrev_run ?_), relink]
  intro k hk
  obtain ⟨links, hl⟩ := hn k hk
  exact hnode ⟨_, withNext_linksAt? hl⟩

/-! ### Putting an instruction in -/

/-- In `b` a slot of `a` has been filled, or emptied, so that the slots are those of a sequence. -/
structure Refilled (a b : Arena) (h : Handle) (node : Option ArenaNode) (t : InstructionSeq) :
    Prop where
  nodes : ∀ k, b.nodeAt? k = if k = h.index then node else a.nodeAt? k
  slots : t.slots = b.slots.map ArenaSlot.shape
  free : b.free = t.free
  head : b.head = a.head
  tail : b.tail = a.tail

theorem allocate_run (hr : a.Represents s) (hs : s.Linked) {n : Nat}
    (hc : (s.place n i).2.slots.size ≤ UInt32.size) (node : ArenaNode) :
    ∃ b, allocate node a = .ok s.freshHandle.index b ∧
      Refilled a b s.freshHandle (some node) (s.place n i).2 ∧ b.size = a.size + 1 := by
  obtain ⟨items, slots, free⟩ := s
  have hfree : a.free = free := hr.free
  have hslots : slots = a.slots.map ArenaSlot.shape := hr.slots
  cases free with
  | nil =>
    have hsize : slots.size = a.slots.size := by rw [hslots, Array.size_map]
    simp only [place, Array.size_push] at hc
    have hi : (UInt32.ofNat a.slots.size).toNat = a.slots.size :=
      UInt32.toNat_ofNat_of_lt' (by omega)
    refine ⟨{ a with slots := a.slots.push ⟨0, some node⟩, size := a.size + 1 },
      by simp only [allocate, hfree, freshHandle, hsize], ⟨?_, ?_, hfree, rfl, rfl⟩, rfl⟩
    · intro k
      simp only [freshHandle, nodeAt?, Array.getElem?_push, hsize, ← UInt32.toNat_inj, hi]
      split <;> rfl
    · rw [Array.map_push, ← hslots]
      rfl
  | cons index free =>
    obtain ⟨generation, hd⟩ := hs.free_dead index List.mem_cons_self
    simp only at hd
    have hshape := hd
    rw [hslots, Array.getElem?_map] at hshape
    obtain ⟨slot, hslot, hshape⟩ := Option.map_eq_some_iff.mp hshape
    have hb : index.toNat < a.slots.size := (Array.getElem?_eq_some_iff.mp hslot).1
    refine ⟨{ a with
      slots := a.slots.setIfInBounds index.toNat { slot with node := some node }
      free := free
      size := a.size + 1 },
      by simp only [allocate, hfree, hslot, freshHandle], ⟨?_, ?_, rfl, rfl, rfl⟩, rfl⟩
    · intro k
      simp only [freshHandle, nodeAt?, Array.getElem?_setIfInBounds, UInt32.toNat_inj,
        eq_comm (a := k)]
      split
      · rfl
      · rfl
    · have hg : slot.generation = generation := congrArg HandleSlot.generation hshape
      rw [Array.map_setIfInBounds, ← hslots]
      simp only [place, freshHandle, hd, Option.map_some, Option.getD_some, ArenaSlot.shape, hg,
        Option.isSome_some]

/-- Links that lead to handles around a piece lead to nodes. -/
theorem exists_links_last {old : List Handle} (hc : a.ChainedAround xs old ys) :
    ∀ k, lastIndex xs = some k → ∃ links, a.linksAt? k = some links := by
  intro k hk
  obtain ⟨h, hh, rfl⟩ := Option.map_eq_some_iff.mp hk
  obtain ⟨us, rfl⟩ := List.getLast?_eq_some_iff.mp hh
  exact ⟨_, hc.before us h [] rfl⟩

theorem exists_links_first {old : List Handle} (hc : a.ChainedAround xs old ys) :
    ∀ k, firstIndex ys = some k → ∃ links, a.linksAt? k = some links := by
  intro k hk
  obtain ⟨h, hh, rfl⟩ := Option.map_eq_some_iff.mp hk
  obtain ⟨vs, rfl⟩ := List.head?_eq_some_iff.mp hh
  exact ⟨_, hc.behind [] h vs rfl⟩

theorem index_ne_of_nodup (hn : ((xs ++ h :: ys).map (·.index)).Nodup) :
    ∀ g ∈ xs ++ ys, g.index ≠ h.index := by
  intro g hg he
  rw [(List.perm_middle.map _).nodup_iff, List.map_cons, ← he] at hn
  exact (List.nodup_cons.mp hn).1 (List.mem_map_of_mem hg)

variable {items old new more : List (Handle × Instruction Handle)} {node : Option ArenaNode}
  {t : InstructionSeq}

/-- What stands around the slot is linked as before, and holds the same instructions. -/
theorem Refilled.around (hf : Refilled a b h node t) (hr : a.Represents s)
    (hl : s.toList = items ++ (old ++ more))
    (hne : ∀ g ∈ items.map (·.1) ++ more.map (·.1), g.index ≠ h.index) :
    b.ChainedAround (items.map (·.1)) (old.map (·.1)) (more.map (·.1)) ∧
      ∀ item ∈ items ++ more, b.instructionAt? item.1.index = some item.2 := by
  constructor
  · have hch := hr.chained
    rw [handles, hl, List.map_append, List.map_append] at hch
    refine (Chained.around hch).congr hf.head hf.tail fun g hg => ?_
    rw [linksAt?, hf.nodes, if_neg (hne g hg), linksAt?]
  · intro item hi
    have hg : item.1 ∈ items.map (·.1) ++ more.map (·.1) := by
      rw [← List.map_append]
      exact List.mem_map_of_mem hi
    have hm : item ∈ s.toList := by
      rw [hl, List.mem_append, List.mem_append]
      exact (List.mem_append.mp hi).imp id .inr
    rw [instructionAt?, hf.nodes, if_neg (hne item.1 hg)]
    exact hr.instructions item hm

/-- The arena stands for the sequence again when the neighbours are linked to what came in. -/
theorem Refilled.represents (hf : Refilled a b h node t)
    (hc : b.ChainedAround xs (old.map (·.1)) ys)
    (ht : t.handles = xs ++ (new.map (·.1) ++ ys)) (hn : (t.handles.map (·.index)).Nodup)
    (hlinks : ∀ us g vs, new.map (·.1) = us ++ g :: vs →
      b.linksAt? g.index = some (lastIndex (xs ++ us), firstIndex (vs ++ ys)))
    (hi : ∀ item ∈ t.toList, b.instructionAt? item.1.index = some item.2)
    (hsize : b.size = t.size) :
    (b.relink (lastIndex xs) (firstIndex ys) (firstIndex (new.map (·.1) ++ ys))
      (lastIndex (xs ++ new.map (·.1)))).Represents t where
  chained := by
    rw [ht] at hn ⊢
    exact hc.relink hn hlinks
  instructions item hm := relink_instructionAt?.trans (hi item hm)
  slots := by rw [relink_shape, hf.slots]
  free := relink_free.trans hf.free
  size := relink_size.trans hsize

theorem splice_run (hr : a.Represents s) (hs : s.Linked) (hl : s.toList = items ++ more)
    (ht : ∀ t ∈ i.targets, s.contains t) (hroom : s.slots.size < UInt32.size) :
    ∃ b, splice i (lastIndex (items.map (·.1))) (firstIndex (more.map (·.1))) a =
      .ok (s.place items.length i).1 b ∧ b.Represents (s.place items.length i).2 := by
  have hc := place_room (n := items.length) (i := i) hroom
  have htoList := place_between (i := i) hl
  have hlinked := linked_place hs (length_le_of_append hl) ht hc
  have hhandles : (s.place items.length i).2.handles =
      items.map (·.1) ++ s.freshHandle :: more.map (·.1) := by
    rw [handles, htoList, List.map_append, List.map_cons]
  have hnodup := index_nodup hlinked
  have hne := index_ne_of_nodup (hhandles ▸ hnodup)
  obtain ⟨b, hb, hf, hsize⟩ := allocate_run hr hs hc
    ⟨i, lastIndex (items.map (·.1)), firstIndex (more.map (·.1))⟩
  have hl' : s.toList = items ++ ([] ++ more) := hl
  obtain ⟨hchain, hinstructions⟩ := hf.around hr hl' hne
  have hhandles' : (s.place items.length i).2.handles = items.map (·.1) ++
      ([(s.freshHandle, i)].map (·.1) ++ more.map (·.1)) := hhandles
  have hrep := hf.represents hchain hhandles' hnodup ?_ ?_ ?_
  · rw [List.map_singleton, lastIndex_concat] at hrep
    refine ⟨_, ?_, hrep⟩
    have hlive : (s.place items.length i).2.contains s.freshHandle := by
      rw [hlinked.live, hhandles]
      simp
    rw [splice, EStateM.bind_of_ok hb, place_handle,
      relink_run (exists_links_last hchain) (exists_links_first hchain)]
    exact ask_of_some (f := fun a => a.handleOf? _) (hrep.handleOf? hlive)
  · intro us g vs he
    obtain ⟨rfl, rfl, rfl⟩ : us = [] ∧ g = s.freshHandle ∧ vs = [] := by
      cases us with
      | nil => simp_all
      | cons u us => simp at he
    rw [linksAt?, hf.nodes, if_pos rfl, List.append_nil]
    rfl
  · intro item hm
    rw [htoList, List.mem_append, List.mem_cons, or_left_comm, ← List.mem_append] at hm
    rcases hm with rfl | hm
    · rw [instructionAt?, hf.nodes, if_pos rfl]
      rfl
    · exact hinstructions item hm
  · rw [hsize, hr.size, size_eq_length, size_eq_length, hl, htoList]
    simp [Nat.add_assoc]

/-- The answer is the same, and the arenas stand for the sequences after it. -/
def Follows (v : α) (b : Arena) (y : α × InstructionSeq) : Prop := v = y.1 ∧ b.Represents y.2

theorem refines_append (hr : a.Represents s) (hs : s.Linked)
    (hroom : s.slots.size < UInt32.size) :
    Refines (append i) a (s.append i) Follows := by
  refine (asks_checkTargets hr).bind fun _ _ ht _ => ?_
  have hl : s.toList = s.toList ++ [] := (List.append_nil _).symm
  obtain ⟨b, hb, hrep⟩ := splice_run hr hs hl (checkTargets_eq_ok.mp ht) hroom
  refine ⟨_, b, ?_, rfl, hrep⟩
  rw [get_bind, hr.chained.tail]
  exact hb

theorem refines_insertBefore (hr : a.Represents s) (hs : s.Linked)
    (hroom : s.slots.size < UInt32.size) :
    Refines (insertBefore h i) a (s.insertBefore h i) Follows := by
  refine (asks_node hr hs).bind ?_
  rintro node n - ⟨items, j, more, hl, rfl, hprev, -⟩
  refine (asks_checkTargets hr).bind fun _ _ ht _ => ?_
  obtain ⟨b, hb, hrep⟩ := splice_run hr hs hl (checkTargets_eq_ok.mp ht) hroom
  rw [← hprev] at hb
  exact ⟨_, b, hb, rfl, hrep⟩

theorem refines_insertAfter (hr : a.Represents s) (hs : s.Linked)
    (hroom : s.slots.size < UInt32.size) :
    Refines (insertAfter h i) a (s.insertAfter h i) Follows := by
  refine (asks_node hr hs).bind ?_
  rintro node n - ⟨items, j, more, hl, rfl, -, hnext⟩
  refine (asks_checkTargets hr).bind fun _ _ ht _ => ?_
  rw [List.append_cons] at hl
  obtain ⟨b, hb, hrep⟩ := splice_run hr hs hl (checkTargets_eq_ok.mp ht) hroom
  rw [← hnext, List.map_append, List.map_singleton, lastIndex_concat] at hb
  rw [List.length_append, List.length_singleton] at hb hrep
  exact ⟨_, b, hb, rfl, hrep⟩

/-! ### Taking an instruction out -/

theorem release_run (hr : a.Represents s) (hl : s.toList = items ++ (h, i) :: more)
    (hc : s.contains h) (rest : Array (Handle × Instruction Handle)) :
    ∃ b, release h a = .ok ⟨i, lastIndex (items.map (·.1)), firstIndex (more.map (·.1))⟩ b ∧
      Refilled a b h none ⟨rest, retired s.slots h, h.index :: s.free⟩ ∧ b.size = a.size - 1 := by
  obtain ⟨⟨generation, _⟩, hslot, rfl⟩ := Option.bind_eq_some_iff.mp (hr.nodeAt? hl)
  have hb : h.index.toNat < a.slots.size := (Array.getElem?_eq_some_iff.mp hslot).1
  have hg : generation = h.generation := by
    rw [contains_iff, hr.slot, hslot] at hc
    cases hc
    rfl
  refine ⟨{ a with
    slots := a.slots.setIfInBounds h.index.toNat ⟨generation + 1, none⟩
    free := h.index :: a.free
    size := a.size - 1 }, by simp only [release, hslot], ⟨?_, ?_, ?_, rfl, rfl⟩, rfl⟩
  · intro k
    simp only [nodeAt?, Array.getElem?_setIfInBounds, UInt32.toNat_inj, eq_comm (a := k)]
    split
    · simp
    · rfl
  · rw [Array.map_setIfInBounds, ← hr.slots, hg]
    rfl
  · exact congrArg _ hr.free

theorem asks_position (hr : a.Represents s) (hs : s.Linked) :
    Asks (checkLive h) a (s.position h) fun _ n => s.contains h ∧ ∃ items j more,
      s.toList = items ++ (h, j) :: more ∧ items.length = n ∧ s.items[n]? = some (h, j) := by
  have hc := hr.contains_eq (h := h)
  unfold checkLive Asks Refines
  rw [get_bind]
  cases hp : s.position? h with
  | some n =>
    obtain ⟨hlive, hsplit⟩ := split_of_position? hp
    rw [position_eq_ok.mpr hp, hc]
    simp only [hlive]
    exact ⟨(), a, rfl, rfl, trivial, hsplit⟩
  | none =>
    rw [InstructionSeq.position, hp, hc, contains_of_position? hs hp]
    rfl

theorem refines_remove (hr : a.Represents s) (hs : s.Linked) :
    Refines (remove h) a (s.remove h) Follows := by
  refine (asks_position hr hs).bind ?_
  rintro - n - ⟨hc, items, j, more, hl, rfl, hj⟩
  have hask : ask (fun a => a.targeters h) a = .ok (s.targeters h) a :=
    ask_of_some (hr.targeters_eq hs)
  unfold Refines
  rw [EStateM.bind_of_ok hask]
  cases ho : ((s.targeters h).filter (· ≠ h)).isEmpty with
  | false =>
    simp only [ho]
    rfl
  | true =>
    simp only [ho, if_true, hj]
    obtain ⟨b, hb, hf, hsize⟩ :=
      release_run hr hl hc (s.items.eraseIdxIfInBounds items.length)
    have hnodup := index_nodup hs
    rw [handles, hl, List.map_append, List.map_cons] at hnodup
    have hl' : s.toList = items ++ ([(h, j)] ++ more) := hl
    obtain ⟨hchain, hinstructions⟩ := hf.around hr hl' (index_ne_of_nodup hnodup)
    have htoList : toList ⟨_, retired s.slots h, h.index :: s.free⟩ = _ := erase_between hl
    have hhandles : handles ⟨s.items.eraseIdxIfInBounds items.length, retired s.slots h,
        h.index :: s.free⟩ = items.map (·.1) ++
          (([] : List (Handle × Instruction Handle)).map (·.1) ++ more.map (·.1)) := by
      rw [handles, htoList, List.map_append]
      rfl
    have hrep := hf.represents hchain hhandles ?_ ?_ ?_ ?_
    · rw [List.map_nil, List.nil_append, List.append_nil] at hrep
      refine ⟨_, _, ?_, rfl, hrep⟩
      rw [EStateM.bind_of_ok hb]
      exact relink_run (exists_links_last hchain) (exists_links_first hchain)
    · rw [handles, htoList, List.map_append]
      exact hnodup.sublist (((List.sublist_cons_self h _).append_left _).map _)
    · intro us g vs he
      cases us <;> cases he
    · intro item hm
      rw [htoList] at hm
      exact hinstructions item hm
    · rw [hsize, hr.size, size_eq_length, size_eq_length, hl, htoList]
      simp

end ArenaM

end Classfile
