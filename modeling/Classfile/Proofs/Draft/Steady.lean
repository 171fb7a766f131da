import Classfile.Proofs.Code.Order
import Classfile.Proofs.Code.Steady
import Classfile.Proofs.Draft.Method

/-!
Building a draft whose tables refer to its instructions. Whatever else may go wrong with it, it is
never that a handle is stale.
-/
namespace Classfile

open InstructionSeq ConstantPool

variable {α β : Type} {d : MethodDraft} {pool : ConstantPool} {h : Handle}

theorem steady_forM {f : α → Except Fault PUnit} {xs : List α} (hf : ∀ x ∈ xs, Steady (f x)) :
    Steady (xs.forM f) := by
  induction xs with
  | nil => exact steady_ok _
  | cons x xs ih =>
    exact (hf x List.mem_cons_self).bind fun _ => ih fun y hy => hf y (List.mem_cons_of_mem _ hy)

theorem Steady.discard {x : Except Fault α} (hx : Steady x) : Steady (Functor.discard x) := by
  rw [Functor.discard, LawfulFunctor.map_const, Function.comp_apply, ← bind_pure_comp]
  exact hx.bind fun _ => steady_ok _

theorem steady_attributeName {a : Attribute} : Steady (pool.attributeName a) := by
  intro h he
  rw [attributeName, ConstantPool.text, ConstantPool.get] at he
  cases hg : pool.get? a.name with
  | none =>
    rw [hg] at he
    cases he
  | some c =>
    rw [hg] at he
    cases c <;> cases he

theorem steady_annotationBytes {annotations : List Annotation} :
    Steady (annotationBytes annotations) := by
  intro h he
  unfold annotationBytes at he
  split at he
  · cases he
  · cases hw : Writer.counted Annotation.write annotations with
    | ok bytes =>
      rw [hw] at he
      cases he
    | error e =>
      rw [hw] at he
      cases he

namespace PoolM

/-- If the computation fails, then not because a handle is stale. -/
def Steady (x : PoolM α) : Prop := ∀ pool h pool', x pool ≠ .error (.staleHandle h) pool'

theorem steady_pure (a : α) : Steady (pure a) := fun _ _ _ he => by cases he

theorem steady_ask {question : ConstantPool → Except Fault α}
    (hq : ∀ pool, Classfile.Steady (question pool)) : Steady (ask question) := by
  intro pool h pool' he
  exact hq pool h (ask_eq_error.mp he).1

theorem Steady.bind {x : PoolM α} {f : α → PoolM β} (hx : Steady x) (hf : ∀ a, Steady (f a)) :
    Steady (x >>= f) := by
  intro pool h pool' he
  rcases EStateM.bind_eq_error.mp he with he | ⟨a, mid, -, he⟩
  · exact hx pool h pool' he
  · exact hf a mid h pool' he

theorem steady_add (c : Constant) : Steady (add c) := by
  intro pool h pool' he
  unfold add at he
  split at he
  · cases he
  · split at he
    · cases he
    · dsimp only at he
      split at he <;> cases he

theorem steady_addAttribute [Payload α] (payload : α) : Steady (addAttribute payload) := by
  refine (steady_add _).bind fun name => ?_
  cases Payload.write payload with
  | ok info => exact steady_pure _
  | error cause => exact fun _ _ _ he => by cases he

theorem steady_addUnless [Payload α] (skip : Bool) (payload : α) :
    Steady (addUnless skip payload) := by
  cases skip with
  | true => exact steady_pure _
  | false => exact (steady_addAttribute payload).bind fun _ => steady_pure _

theorem steady_addNamed (skip : Bool) (name : String) (info : List UInt8) :
    Steady (addNamed skip name info) := by
  cases skip with
  | true => exact steady_pure _
  | false => exact (steady_add _).bind fun _ => steady_pure _

theorem steady_addAnnotations (uses : List AnnotationUse) : Steady (addAnnotations uses) := by
  rw [addAnnotations_eq]
  refine (steady_ask fun _ => steady_annotationBytes).bind fun visible => ?_
  refine (steady_ask fun _ => steady_annotationBytes).bind fun invisible => ?_
  exact (steady_addNamed _ _ _).bind fun _ => (steady_addNamed _ _ _).bind fun _ => steady_pure _

theorem steady_addParameterAnnotations (parameters : List (List AnnotationUse)) :
    Steady (addParameterAnnotations parameters) := by
  rw [addParameterAnnotations_eq]
  exact (steady_addUnless _ _).bind fun _ => (steady_addUnless _ _).bind fun _ => steady_pure _

end PoolM

namespace MethodDraft

theorem exists_startOffset {s : InstructionSeq} (hs : s.Linked) (hh : s.contains h) :
    ∃ offset, startOffset s.layout h = .ok offset := by
  obtain ⟨wide, hl, -⟩ := Layout.exists_widening s
  obtain ⟨n, hn⟩ := exists_position? hs hh
  exact ⟨_, by rw [startOffset, hl, offsetOf?_of_position? hs hn]⟩

theorem startOffset_of_notMem {s : InstructionSeq} (hh : h ∉ s.handles) :
    startOffset s.layout h = .error (.staleHandle h) := by
  obtain ⟨wide, hl, -⟩ := Layout.exists_widening s
  rw [startOffset, hl, Layout.widening_offsetOf?_of_notMem wide hh]

theorem stopOffset_of_notMem {s : InstructionSeq} (hh : h ∉ s.handles) :
    stopOffset s.layout h = .error (.staleHandle h) := by
  obtain ⟨wide, hl, -⟩ := Layout.exists_widening s
  rw [stopOffset, Layout.endOf?, Layout.placed?, hl, Layout.widening_offsetOf?_of_notMem wide hh]
  rfl

theorem exists_stopOffset {s : InstructionSeq} (hs : s.Linked) (hh : s.contains h) :
    ∃ offset, stopOffset s.layout h = .ok offset := by
  obtain ⟨wide, hl, -⟩ := Layout.exists_widening s
  obtain ⟨n, hn⟩ := exists_position? hs hh
  exact ⟨_, by rw [stopOffset, hl, endOf?_of_position? hs hn]⟩

/-- All handles in the tables are those of instructions. -/
structure TablesLive (d : MethodDraft) : Prop where
  handlers : ∀ range ∈ d.handlers, d.instructions.contains range.first ∧
    d.instructions.contains range.last ∧ d.instructions.contains range.handler
  lines : ∀ line ∈ d.lines.toList, d.instructions.contains line.1
  scopes : ∀ scope ∈ d.scopes ++ d.typeScopes, d.instructions.contains scope.first ∧
    d.instructions.contains scope.last

theorem TablesFit.live (h : d.TablesFit) : d.TablesLive :=
  ⟨fun range hm => ⟨(h.handlers range hm).1.contains_left, (h.handlers range hm).1.contains_right,
      (h.handlers range hm).2⟩,
    h.lines,
    fun scope hm => ⟨(h.scopes scope hm).contains_left, (h.scopes scope hm).contains_right⟩⟩

theorem steady_addTable {make : List α → β} [Payload β] {entries : Except Fault (List α)}
    (he : Classfile.Steady entries) : PoolM.Steady (addTable make entries) := by
  refine (PoolM.steady_ask fun _ => he).bind fun entries => ?_
  cases entries with
  | nil => exact PoolM.steady_pure _
  | cons x entries => exact (PoolM.steady_addAttribute _).bind fun _ => PoolM.steady_pure _

theorem steady_buildCode (hs : d.instructions.Linked) (ht : d.TablesLive) :
    PoolM.Steady d.buildCode := by
  have hstart : ∀ {h}, d.instructions.contains h →
      Classfile.Steady (startOffset d.instructions.layout h) := by
    intro h hh
    obtain ⟨offset, ho⟩ := exists_startOffset hs hh
    exact ho ▸ steady_ok offset
  have hstop : ∀ {h}, d.instructions.contains h →
      Classfile.Steady (stopOffset d.instructions.layout h) := by
    intro h hh
    obtain ⟨offset, ho⟩ := exists_stopOffset hs hh
    exact ho ▸ steady_ok offset
  have hhandler : ∀ range ∈ d.handlers,
      Classfile.Steady (storedHandler d.instructions.layout range) := by
    intro range hr
    obtain ⟨hf, hl, hh⟩ := ht.handlers range hr
    exact (hstart hf).bind fun _ => (hstop hl).bind fun _ => (hstart hh).bind fun _ => steady_ok _
  have hline : ∀ line ∈ d.lines.toList,
      Classfile.Steady (storedLine d.instructions.layout line) := by
    intro line hl
    exact (hstart (ht.lines line hl)).bind fun _ => steady_ok _
  have hscope : ∀ scope ∈ d.scopes ++ d.typeScopes,
      Classfile.Steady (storedScope d.instructions.layout scope) := by
    intro scope hm
    obtain ⟨hf, hl⟩ := ht.scopes scope hm
    exact (hstart hf).bind fun _ => (hstop hl).bind fun _ => steady_ok _
  refine (PoolM.steady_ask fun _ => steady_encode hs.targets).bind fun code => ?_
  refine (PoolM.steady_ask fun _ => steady_mapM hhandler).bind fun handlers => ?_
  refine (steady_addTable (steady_mapM hline)).bind fun lines => ?_
  refine (steady_addTable (steady_mapM fun scope hm =>
    hscope scope (List.mem_append_left _ hm))).bind fun scopes => ?_
  refine (steady_addTable (steady_mapM fun scope hm =>
    hscope scope (List.mem_append_right _ hm))).bind fun typeScopes => ?_
  have hname : ∀ (pool : ConstantPool) a, Classfile.Steady (discard (pool.attributeName a)) :=
    fun _ _ => steady_attributeName.discard
  exact (PoolM.steady_ask fun pool => steady_forM fun a _ => hname pool a).bind fun _ =>
    PoolM.steady_pure _

theorem steady_build (hs : d.instructions.Linked) (ht : d.TablesLive) : PoolM.Steady d.build := by
  rw [build_eq]
  refine (PoolM.steady_add _).bind fun name => (PoolM.steady_add _).bind fun descriptor => ?_
  refine PoolM.Steady.bind ?_ fun code => ?_
  · unfold addCode
    split
    · exact PoolM.steady_pure _
    · refine (steady_buildCode hs ht).bind fun body => ?_
      exact (PoolM.steady_addAttribute body).bind fun _ => PoolM.steady_pure _
  · refine (PoolM.steady_addUnless _ _).bind fun exceptions => ?_
    refine (PoolM.steady_addAnnotations _).bind fun annotations => ?_
    exact (PoolM.steady_addParameterAnnotations _).bind fun _ => PoolM.steady_pure _

end MethodDraft

end Classfile
