import BonsaiGrid.Store.View

/-!
# Calls of the structure mutators

A call of a mutator does nothing, or changes one structure and emits its state, or hands out a
batch of ids, of which nothing is emitted.
-/

namespace BonsaiGrid

namespace Store

inductive StructureCall where
  | queueOffer (q : Str) (v : Bytes)
  | queuePoll (q : Str)
  | queueRemove (q : Str) (v : Bytes)
  | queueClear (q : Str)
  | listAdd (name : Str) (v : Bytes)
  | listRemove (name : Str) (v : Bytes)
  | listClear (name : Str)
  | setAdd (name : Str) (v : Bytes)
  | setRemove (name : Str) (v : Bytes)
  | setClear (name : Str)
  | mmPut (name : Str) (key value : Bytes)
  | mmRemove (name : Str) (key : Bytes)
  | rbAdd (name : Str) (v : Bytes)
  | pnAdd (name : Str) (delta : Int64) (getBefore : Bool)
  | hllAdd (name : Str) (hash : UInt64)
  | flakeBatch (name : Str) (batch : Int32)

def StructureCall.target : StructureCall → Option (AuxKind × Str)
  | .queueOffer q _ => some (.queue, q)
  | .queuePoll q => some (.queue, q)
  | .queueRemove q _ => some (.queue, q)
  | .queueClear q => some (.queue, q)
  | .listAdd name _ => some (.list, name)
  | .listRemove name _ => some (.list, name)
  | .listClear name => some (.list, name)
  | .setAdd name _ => some (.set, name)
  | .setRemove name _ => some (.set, name)
  | .setClear name => some (.set, name)
  | .mmPut name _ _ => some (.multimap, name)
  | .mmRemove name _ => some (.multimap, name)
  | .rbAdd name _ => some (.ringbuffer, name)
  | .pnAdd name _ _ => some (.pncounter, name)
  | .hllAdd name _ => some (.hll, name)
  | .flakeBatch _ _ => none

def callStructure (s : Store) : StructureCall → Store
  | .queueOffer q v => (s.queueOffer q v).1
  | .queuePoll q => (s.queuePoll q).1
  | .queueRemove q v => (s.queueRemove q v).1
  | .queueClear q => s.queueClear q
  | .listAdd name v => (s.listAdd name v).1
  | .listRemove name v => (s.listRemove name v).1
  | .listClear name => s.listClear name
  | .setAdd name v => (s.setAdd name v).1
  | .setRemove name v => (s.setRemove name v).1
  | .setClear name => s.setClear name
  | .mmPut name key value => (s.mmPut name key value).1
  | .mmRemove name key => (s.mmRemove name key).1
  | .rbAdd name v => (s.rbAdd name v).1
  | .pnAdd name delta getBefore => (s.pnAdd name delta getBefore).1
  | .hllAdd name hash => s.hllAdd name hash
  | .flakeBatch name batch => (s.flakeBatch name batch).1

variable {kind : AuxKind}

section Touched

variable (s : Structures) {name : Str}

def Tried {R : Type} (kind : AuxKind) (name : Str) (r : Structures × R) (done : Bool) : Prop :=
  r.1 = s ∧ done = false ∨ Touched s r.1 kind name ∧ done = true

variable {s} in
theorem Tried.eq_of_false {R : Type} {r : Structures × R} {done : Bool}
    (h : Tried s kind name r done) (hdone : done = false) : r.1 = s :=
  h.elim And.left fun ht => absurd (hdone.symm.trans ht.2) Bool.false_ne_true

theorem tried_queuePoll (q : Str) :
    Tried s .queue q (s.queuePoll q) (s.queuePoll q).2.isSome := by
  rw [Structures.queuePoll]
  split
  next => exact .inr ⟨touched_write s (.queue _), rfl⟩
  next => exact .inl ⟨rfl, rfl⟩

theorem tried_remove (name : Str) (v : Bytes) :
    Tried s .queue name (s.queueRemove name v) (s.queueRemove name v).2 ∧
      Tried s .list name (s.listRemove name v) (s.listRemove name v).2 ∧
      Tried s .set name (s.setRemove name v) (s.setRemove name v).2 := by
  rw [Structures.queueRemove, Structures.listRemove, Structures.setRemove]
  refine ⟨?_, ?_, ?_⟩
  all_goals
    split
    next x _ =>
      split
      next =>
        refine .inr ⟨?_, rfl⟩
        first
        | exact touched_write s (.queue _)
        | exact touched_write s (.list _)
        | exact touched_write s (.set _)
      next => exact .inl ⟨rfl, rfl⟩
    next => exact .inl ⟨rfl, rfl⟩

end Touched

inductive Called (s : Store) : StructureCall → Store → Prop
  | nothing (c : StructureCall) : Called s c s
  | emitted (c : StructureCall) {aux : Structures} {kind : AuxKind} {name : Str}
      (htarget : c.target = some (kind, name)) (h : Touched s.aux aux kind name) :
      Called s c (emitAux { s with aux := aux } kind name)
  | batch (name : Str) (batch : Int32) :
      Called s (.flakeBatch name batch) (s.flakeBatch name batch).1

theorem Called.of_tried {s : Store} (c : StructureCall) {R : Type} {name : Str}
    {r : Structures × R} {done : Bool} (htarget : c.target = some (kind, name))
    (h : Tried s.aux kind name r done) :
    Called s c (if done = true then emitAux { s with aux := r.1 } kind name
      else { s with aux := r.1 }) := by
  rcases h with ⟨heq, rfl⟩ | ⟨htouched, rfl⟩
  · rw [heq]
    exact .nothing c
  · exact .emitted c htarget htouched

theorem called_callStructure (s : Store) (c : StructureCall) : Called s c (s.callStructure c) := by
  cases c with
  | queueOffer q v => exact .emitted _ rfl (touched_write s.aux (.queue _))
  | queuePoll q => exact .of_tried _ rfl (tried_queuePoll s.aux q)
  | queueRemove q v => exact .of_tried _ rfl (tried_remove s.aux q v).1
  | queueClear name | listClear name | setClear name =>
    refine .emitted _ rfl ?_
    simp only [Structures.queueClear, Structures.listClear, Structures.setClear]
    split
    next =>
      first
      | exact touched_write s.aux (.queue _)
      | exact touched_write s.aux (.list _)
      | exact touched_write s.aux (.set _)
    next => exact touched_self s.aux (by decide)
  | listAdd name v => exact .emitted _ rfl (touched_write s.aux (.list _))
  | listRemove name v => exact .of_tried _ rfl (tried_remove s.aux name v).2.1
  | setAdd name v => exact .emitted _ rfl (touched_write s.aux (.set _))
  | setRemove name v => exact .of_tried _ rfl (tried_remove s.aux name v).2.2
  | mmPut name key value =>
    refine .emitted _ rfl ?_
    rw [Structures.mmPut]
    split <;> exact touched_write s.aux (.multimap _)
  | mmRemove name key =>
    refine .emitted _ rfl ?_
    rw [Structures.mmRemove]
    split
    next => exact touched_write s.aux (.multimap _)
    next => exact touched_self s.aux (by decide)
  | rbAdd name v => exact .emitted _ rfl (touched_write s.aux (.ringbuffer _))
  | pnAdd name delta getBefore => exact .emitted _ rfl (touched_write s.aux (.pncounter _))
  | hllAdd name hash => exact .emitted _ rfl (touched_write s.aux (.hll _))
  | flakeBatch name batch => exact .batch name batch

theorem Touched.view_installAux {s s' t : Structures} {name : Str}
    (h : Touched s s' kind name) (hview : ∀ kind name, t.view kind name = s.view kind name)
    (hfits : (s'.serializeAux kind name).length < 2 ^ 32) (kind' : AuxKind) (name' : Str) :
    (t.installAux kind name (s'.serializeAux kind name)).view kind' name' = s'.view kind' name' := by
  by_cases hother : kind' ≠ kind ∨ name' ≠ name
  · rw [Structures.view_installAux_of_ne t _ hother, hview, h.other kind' name' hother]
  · obtain ⟨rfl, rfl⟩ : kind' = kind ∧ name' = name := by
      rw [not_or, not_not, not_not] at hother
      exact hother
    by_cases hthere : s'.Present kind' name'
    · exact Structures.view_installAux_of_present t hthere hfits
    · obtain ⟨hkind, rfl⟩ := h.there.resolve_left hthere
      exact Structures.view_installAux_of_absent hthere hkind (hview kind' name')

end Store

end BonsaiGrid
