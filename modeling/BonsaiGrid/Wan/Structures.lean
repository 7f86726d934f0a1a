import BonsaiGrid.Store.Calls
import BonsaiGrid.Wan.Convergence

/-!
# Convergence of the structures of two clusters

After each change of a structure a store publishes its whole state, without a stamp, and the other
store installs it in the place of what it has.
-/

namespace BonsaiGrid.Wan

open Store Persistence Structures Lww.Link

/-! ## Installing states -/

def leastLength : AuxKind → ℕ
  | .multimap => 4
  | .ringbuffer => 24
  | .pncounter => 8
  | _ => 0

def installedView (kind : AuxKind) (name : Str) (data : Bytes) : Option View :=
  if data.length < leastLength kind then none
  else some ((({} : Structures).installAux kind name data).view kind name)

section Install

variable {s : Structures} {kind : AuxKind} {name : Str}

theorem installAux_of_short (t : Structures) {data : Bytes} (h : data.length < leastLength kind) :
    t.installAux kind name data = t := by
  cases kind with
  | multimap | ringbuffer | pncounter => exact if_pos h
  | queue | list | set | hll => exact absurd h (Nat.not_lt_zero _)

theorem view_installAux_eq (t t' : Structures) {data : Bytes}
    (h : ¬ data.length < leastLength kind) :
    (t.installAux kind name data).view kind name =
      (t'.installAux kind name data).view kind name := by
  cases kind with
  | queue | list | set | hll =>
    simp [Structures.installAux, Structures.view, Structures.queueItems, Structures.listGetAll,
      Structures.setDict]
  | multimap | ringbuffer | pncounter =>
    simp only [leastLength] at h
    simp [Structures.installAux, Structures.view, Structures.multimapDict, Structures.pnGet, h]

theorem view_installAux (t : Structures) (data : Bytes) :
    (t.installAux kind name data).view kind name =
      (installedView kind name data).getD (t.view kind name) := by
  rw [installedView]
  by_cases hshort : data.length < leastLength kind
  · rw [if_pos hshort, installAux_of_short t hshort, Option.getD_none]
  · rw [if_neg hshort]
    exact view_installAux_eq t {} hshort

theorem leastLength_le (h : s.Present kind name) :
    leastLength kind ≤ (s.serializeAux kind name).length := by
  cases kind with
  | multimap =>
    obtain ⟨mm, hmm⟩ := Option.isSome_iff_exists.1 h
    rw [serializeAux, hmm, Option.elim_some, putMultimap, List.length_append]
    exact Nat.le_add_right _ _
  | ringbuffer =>
    obtain ⟨r, hr⟩ := Option.isSome_iff_exists.1 h
    rw [serializeAux, hr, Option.elim_some]
    simp only [List.length_append, length_putI64]
    exact Nat.le_add_right _ _
  | pncounter =>
    obtain ⟨v, hv⟩ := Option.isSome_iff_exists.1 h
    rw [serializeAux, hv, Option.elim_some]
    exact Nat.le_refl _
  | queue | list | set | hll => exact Nat.zero_le _

/-- Where a structure is installed that was changed, it is seen as it was published; a state that
is not installed is that of a structure which did not change. -/
theorem installedView_of_touched {s' : Structures} (h : Touched s s' kind name)
    (hfits : (s'.serializeAux kind name).length < 2 ^ 32) :
    installedView kind name (s'.serializeAux kind name) = some (s'.view kind name) ∨
      installedView kind name (s'.serializeAux kind name) = none ∧ s' = s := by
  rw [installedView]
  by_cases hthere : s'.Present kind name
  · rw [if_neg (Nat.not_lt.2 (leastLength_le hthere)),
      view_installAux_of_present {} hthere hfits]
    exact .inl rfl
  · obtain ⟨hkind, heq⟩ := h.there.resolve_left hthere
    split
    next => exact .inr ⟨rfl, heq⟩
    next =>
      rw [view_installAux_of_absent hthere hkind (view_of_absent hthere).symm]
      exact .inl rfl

end Install

theorem code_of_ofCode {code : UInt8} {kind : AuxKind} (h : AuxKind.ofCode code = some kind) :
    code = kind.code := by
  rw [AuxKind.ofCode] at h
  repeat' split at h
  all_goals cases h
  all_goals assumption

theorem code_injective : Function.Injective AuxKind.code := by
  intro kind kind' h
  have hkind := AuxKind.ofCode_code kind
  rw [h, AuxKind.ofCode_code] at hkind
  exact (Option.some.inj hkind).symm

/-! ## Runs -/

namespace Pair

/-- Once all records are applied, the stores answer every query of a structure alike. -/
def StructuresConverge (p : Pair) : Prop :=
  p.toB.pending = [] → p.toA.pending = [] → ∀ q, p.a.aux.ask q = p.b.aux.ask q

/-- A structure is changed only while no state of it may still arrive, and what is published
fits its frame. -/
def Alone (p : Pair) : Act StructureCall → Prop
  | .op c =>
    (∀ kn ∈ c.target, ∀ r ∈ p.toA.unacked, r.op = .aux kn.1.code → r.map ≠ kn.2) ∧
      ∀ r ∈ (p.a.callStructure c).wanSink.getD [], Fits (publish r)
  | _ => True

instance (p : Pair) : (e : Act StructureCall) → Decidable (p.Alone e)
  | .op _ => inferInstanceAs (Decidable (_ ∧ _))
  | .deliver _ | .ack | .resend => isTrue trivial

end Pair

def viewUpdate (kind : AuxKind) (name : Str) (r : WanRecord) : Option View :=
  if r.op = .aux kind.code ∧ r.map = name then installedView kind name r.value else none

theorem view_applyBatch (s : Store) (env : StoreEnv) (r : WanRecord) (kind : AuxKind) (name : Str) :
    (applyBatch s [(env, r)]).wanSink = s.wanSink ∧
      (applyBatch s [(env, r)]).aux.view kind name =
        (viewUpdate kind name r).getD (s.aux.view kind name) := by
  change (applyRecord s env r).wanSink = s.wanSink ∧ (applyRecord s env r).aux.view kind name = _
  rw [applyRecord, viewUpdate]
  cases hop : r.op with
  | put | remove => exact ⟨rfl, by rw [if_neg fun h => (by cases h.1)]; rfl⟩
  | aux code =>
    dsimp only
    cases hkind : AuxKind.ofCode code with
    | none =>
      refine ⟨rfl, ?_⟩
      rw [if_neg]
      · rfl
      · rintro ⟨heq, -⟩
        cases heq
        rw [AuxKind.ofCode_code] at hkind
        cases hkind
    | some kind' =>
      obtain rfl := code_of_ofCode hkind
      refine ⟨rfl, ?_⟩
      by_cases hsame : kind' = kind ∧ r.map = name
      · obtain ⟨rfl, rfl⟩ := hsame
        rw [if_pos ⟨rfl, rfl⟩]
        exact view_installAux _ _
      · rw [if_neg]
        · refine view_installAux_of_ne _ _ ?_
          by_contra hnot
          rw [not_or, not_not, not_not] at hnot
          exact hsame ⟨hnot.1.symm, hnot.2.symm⟩
        · rintro ⟨heq, hmap⟩
          exact hsame ⟨code_injective (WanOp.aux.inj heq), hmap⟩

/-- Both stores publish, and on every structure one of them follows the other one. -/
structure Pair.StructuresOk (p : Pair) : Prop where
  a : p.a.wanSink = some []
  b : p.b.wanSink = some []
  views : ∀ kind name, Lww.InStep (p.a.aux.view kind name) (p.b.aux.view kind name)
    (p.toB.filterMap (viewUpdate kind name)) (p.toA.filterMap (viewUpdate kind name))

namespace Pair.StructuresOk

variable {p : Pair}

theorem swap (h : p.StructuresOk) : p.swap.StructuresOk :=
  ⟨h.b, h.a, fun kind name => (h.views kind name).symm⟩

theorem start (shards memberId shards' memberId' : ℕ) :
    (Pair.start shards memberId shards' memberId').StructuresOk :=
  ⟨rfl, rfl, fun _ _ => .start _⟩

theorem call (h : p.StructuresOk) {c : StructureCall} (hok : p.Alone (.op c)) :
    (p.act callStructure (.op c)).StructuresOk := by
  obtain ⟨halone, hfits⟩ := hok
  have hcalled := called_callStructure p.a c
  change (p.capture (p.a.callStructure c)).StructuresOk
  generalize p.a.callStructure c = s at hcalled hfits
  cases hcalled with
  | nothing =>
    rw [Pair.capture, h.a]
    exact ⟨rfl, h.b, h.views⟩
  | batch name batch =>
    have hsink : (p.a.flakeBatch name batch).1.wanSink = some [] := h.a
    rw [Pair.capture, hsink]
    refine ⟨rfl, h.b, fun kind name' => ?_⟩
    exact h.views kind name'
  | @emitted _ aux kind name htarget htouched =>
    have hsink : (emitAux { p.a with aux := aux } kind name).wanSink =
        some [.auxState kind name (aux.serializeAux kind name)] := by
      change Option.map (· ++ [_]) p.a.wanSink = _
      rw [h.a]
      rfl
    rw [hsink] at hfits
    have hlen : (aux.serializeAux kind name).length < 2 ^ 32 := by
      have hbody := (hfits _ (List.mem_singleton_self _)).1
      simp only [body, publish, List.length_append, Blob.length_put] at hbody
      omega
    rw [Pair.capture_singleton hsink]
    refine ⟨rfl, h.b, fun kind' name' => ?_⟩
    change Lww.InStep (aux.view kind' name') _
      ((p.toB.push (publish (.auxState kind name (aux.serializeAux kind name)))).filterMap _) _
    by_cases hsame : kind' = kind ∧ name' = name
    · obtain ⟨rfl, rfl⟩ := hsame
      have hupdate : viewUpdate kind' name' (publish (.auxState kind' name'
          (aux.serializeAux kind' name'))) =
            installedView kind' name' (aux.serializeAux kind' name') := if_pos ⟨rfl, rfl⟩
      rcases installedView_of_touched htouched hlen with hview | ⟨hview, rfl⟩
      · rw [filterMap_push_some (hupdate.trans hview)]
        refine .write _ _ _ ?_
        rw [unacked_filterMap, List.filterMap_eq_nil_iff]
        exact fun r hr => if_neg fun heq => halone _ htarget r hr heq.1 heq.2
      · rw [filterMap_push_none (hupdate.trans hview)]
        exact h.views kind' name'
    · have hne : kind' ≠ kind ∨ name' ≠ name := by
        by_contra hnot
        rw [not_or, not_not, not_not] at hnot
        exact hsame hnot
      rw [htouched.other kind' name' hne, filterMap_push_none]
      · exact h.views kind' name'
      · refine if_neg fun heq => hsame ⟨?_, heq.2.symm⟩
        exact (code_injective (WanOp.aux.inj heq.1)).symm

theorem deliver (h : p.StructuresOk) (env : StoreEnv) : (p.deliver env).StructuresOk := by
  rw [Pair.deliver]
  cases hhead : p.toB.pending.head? with
  | none => exact h
  | some r =>
    obtain ⟨rs, hrs⟩ := List.head?_eq_some_iff.1 hhead
    refine ⟨h.a, (view_applyBatch p.b env r .queue r.map).1.trans h.b, fun kind name => ?_⟩
    change Lww.InStep _ ((applyBatch p.b [(env, r)]).aux.view kind name)
      (p.toB.advance.filterMap _) _
    rw [(view_applyBatch p.b env r kind name).2]
    cases hupdate : viewUpdate kind name r with
    | none =>
      rw [filterMap_advance_none hhead hupdate]
      exact h.views kind name
    | some v =>
      rw [filterMap_advance_some hhead hupdate]
      refine (h.views kind name).deliver ?_
      rw [filterMap, hrs, List.filterMap_cons_some hupdate]
      rfl

theorem act (h : p.StructuresOk) {e : Act StructureCall} (hok : p.Alone e) :
    (p.act callStructure e).StructuresOk := by
  cases e with
  | op c => exact h.call hok
  | deliver env => exact h.deliver env
  | ack => exact ⟨h.a, h.b, fun kind name => (h.views kind name).ack⟩
  | resend =>
    refine ⟨h.a, h.b, fun kind name => ?_⟩
    change Lww.InStep _ _ (p.toB.resend.filterMap _) _
    rw [filterMap_resend]
    exact (h.views kind name).resend

theorem converge (h : p.StructuresOk) : p.StructuresConverge := by
  intro hB hA
  refine ask_eq_of_view fun kind name => (h.views kind name).agree ?_ ?_
  · rw [filterMap, hB]
    rfl
  · rw [filterMap, hA]
    rfl

end Pair.StructuresOk

/-- In every run in which each structure is changed only while no state of it is on its way, the
stores converge on the structures. -/
theorem structures_converge {shards memberId shards' memberId' : ℕ} {p : Pair}
    (h : Pair.Run callStructure Pair.Alone shards memberId shards' memberId' p) :
    p.StructuresConverge :=
  (h.invariant (I := fun _ _ => Pair.StructuresOk) (fun _ _ _ hp => hp.swap)
    (fun _ _ _ _ _ hp hok => hp.act hok) (.start shards memberId shards' memberId')).converge

def offer (v : Bytes) : Act StructureCall := .op (.queueOffer orders v)

def turns : List (Bool × Act StructureCall) :=
  [(false, offer [1]), (false, offer [2]), (false, .deliver noon), (false, .resend),
    (false, .deliver noon), (false, .deliver noon), (false, .ack),
    (true, .op (.queuePoll orders)), (true, .deliver noon)]

theorem structures_converge_in_turns :
    let p := turns.foldl (Pair.exec callStructure) (Pair.start 1 3 2 4)
    p.toB.pending = [] ∧ p.toA.pending = [] ∧ p.StructuresConverge := by
  have hallowed : Trace.Allowed (Pair.exec callStructure) (Pair.Meets Pair.Alone)
      (Pair.start 1 3 2 4) turns := by
    decide +kernel
  exact ⟨by decide +kernel, by decide +kernel, structures_converge (.of_allowed turns hallowed)⟩

def crossingOffers : List (Bool × Act StructureCall) :=
  [(false, offer [1]), (true, offer [2]), (false, .deliver noon), (true, .deliver noon)]

/-- Stores that change a queue at the same time swap their states. -/
theorem structures_swap :
    let p := crossingOffers.foldl (Pair.exec callStructure) (Pair.start 1 3 1 4)
    Pair.Run callStructure (fun _ _ => True) 1 3 1 4 p ∧ ¬ p.StructuresConverge := by
  refine ⟨.of_allowed crossingOffers (by decide), fun h => ?_⟩
  have hask := h (by decide +kernel) (by decide +kernel) (.queuePeek orders)
  have hpeek := Structures.Answer.item.inj hask
  revert hpeek
  decide +kernel

end BonsaiGrid.Wan
