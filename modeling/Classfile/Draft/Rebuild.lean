import Classfile.Draft.Class

/-!
Rebuilding a class without editing it. Every member becomes a draft and is built again; of members
with the same name and descriptor only the first one is ever found.
-/
namespace Classfile

namespace ClassM

/-- Build the method again that has the name and the descriptor of a stored one. -/
def rebuildMethod (m : Method) : ClassM MethodDraft := do
  let (name, descriptor) ← ask fun d => d.signatureOf m
  let draft ← ask fun d => d.method name descriptor
  discard (replaceMethod name descriptor draft)
  return draft

/-- Build the field again that has the name and the descriptor of a stored one. -/
def rebuildField (f : Field) : ClassM FieldDraft := do
  let (name, descriptor) ← ask fun d => d.signatureOf f
  let draft ← ask fun d => d.field name descriptor
  discard (replaceField name descriptor draft)
  return draft

/-- Build each of the methods again, by position. -/
def rebuildMethods : List Nat → ClassM (List MethodDraft)
  | [] => return []
  | position :: rest => do
    let m? := (← get).methods[position]?
    let drafts ← m?.toList.mapM rebuildMethod
    return drafts ++ (← rebuildMethods rest)

/-- Build each of the fields again, by position. -/
def rebuildFields : List Nat → ClassM (List FieldDraft)
  | [] => return []
  | position :: rest => do
    let f? := (← get).fields[position]?
    let drafts ← f?.toList.mapM rebuildField
    return drafts ++ (← rebuildFields rest)

/-- Build every method and then every field again, and give back their drafts. -/
def rebuildMembers : ClassM (List MethodDraft × List FieldDraft) := do
  let methods ← rebuildMethods (List.range (← get).methods.length)
  let fields ← rebuildFields (List.range (← get).fields.length)
  return (methods, fields)

end ClassM

/-- The image of the class when every member has been built again. -/
def ClassImage.rebuild (c : ClassImage) : Except Fault ClassImage := do
  let d ← ClassDraft.ofImage c
  match ClassM.rebuildMembers d with
  | .ok _ d => d.build
  | .error e _ => throw e

end Classfile
