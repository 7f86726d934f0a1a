import BonsaiGrid.Store.Store
import Mathlib.Data.Multiset.Basic

/-!
# What is seen of the structures

The queries of a structure show its view: the items of a queue or a list, the members of a set,
the values of each key of a multimap, and the whole state of the others.
-/

namespace BonsaiGrid.Store

open Blob LittleEndian List AList Option Dict

inductive View where
  | items (l : List Bytes)
  | members (contains : Bytes → Bool)
  | values (lookup : Bytes → Option (List Bytes))
  | ring (r : Option Ring)
  | count (v : Int64)
  | sketch (h : Option Hll)

variable (s : Structures) (name : Str)

namespace Structures

def queueItems (q : Str) : List Bytes := (s.queues.lookup q).getD []

def setDict : Dict Bytes Unit := (s.sets.lookup name).getD ∅

def multimapDict : Dict Bytes (List Bytes) :=
  (s.multimaps.lookup name).getD ∅

def view : AuxKind → Str → View
  | .queue, name => .items (s.queueItems name)
  | .list, name => .items (s.listGetAll name)
  | .set, name => .members fun v => ((s.setDict name).lookup v).isSome
  | .multimap, name => .values fun key => (s.multimapDict name).lookup key
  | .ringbuffer, name => .ring (s.ringbuffers.lookup name)
  | .pncounter, name => .count (s.pnGet name)
  | .hll, name => .sketch (s.hlls.lookup name)

def Present : AuxKind → Str → Prop
  | .queue, name => (s.queues.lookup name).isSome
  | .list, name => (s.lists.lookup name).isSome
  | .set, name => (s.sets.lookup name).isSome
  | .multimap, name => (s.multimaps.lookup name).isSome
  | .ringbuffer, name => (s.ringbuffers.lookup name).isSome
  | .pncounter, name => (s.pncounters.lookup name).isSome
  | .hll, name => (s.hlls.lookup name).isSome

/-! ## Queries -/

inductive Query where
  | queuePeek (q : Str)
  | queueSize (q : Str)
  | queueContains (q : Str) (v : Bytes)
  | queueIsEmpty (q : Str)
  | listGet (name : Str) (index : Int32)
  | listSize (name : Str)
  | listContains (name : Str) (v : Bytes)
  | listGetAll (name : Str)
  | listIsEmpty (name : Str)
  | setContains (name : Str) (v : Bytes)
  | setSize (name : Str)
  | setGetAll (name : Str)
  | mmGet (name : Str) (key : Bytes)
  | mmValueCount (name : Str) (key : Bytes)
  | mmSize (name : Str)
  | rbReadOne (name : Str) (seq : Int64)
  | rbSize (name : Str)
  | rbCapacity (name : Str)
  | rbTail (name : Str)
  | rbHead (name : Str)
  | pnGet (name : Str)
  | hllEstimate (name : Str)

/-- The answer to a query; the elements of a set come in no order. -/
inductive Answer where
  | item (v : Option Bytes)
  | items (l : List Bytes)
  | bag (l : Multiset Bytes)
  | size (n : ℕ)
  | flag (b : Bool)
  | number (v : Int64)
  | estimate (v : UInt64)

def ask : Query → Answer
  | .queuePeek q => .item (s.queuePeek q)
  | .queueSize q => .size (s.queueSize q)
  | .queueContains q v => .flag (s.queueContains q v)
  | .queueIsEmpty q => .flag (s.queueIsEmpty q)
  | .listGet name index => .item (s.listGet name index)
  | .listSize name => .size (s.listSize name)
  | .listContains name v => .flag (s.listContains name v)
  | .listGetAll name => .items (s.listGetAll name)
  | .listIsEmpty name => .flag (s.listIsEmpty name)
  | .setContains name v => .flag (s.setContains name v)
  | .setSize name => .size (s.setSize name)
  | .setGetAll name => .bag (s.setGetAll name)
  | .mmGet name key => .items (s.mmGet name key)
  | .mmValueCount name key => .size (s.mmValueCount name key)
  | .mmSize name => .size (s.mmSize name)
  | .rbReadOne name seq => .item (s.rbReadOne name seq)
  | .rbSize name => .number (s.rbSize name)
  | .rbCapacity name => .number (s.rbCapacity name)
  | .rbTail name => .number (s.rbTail name)
  | .rbHead name => .number (s.rbHead name)
  | .pnGet name => .number (s.pnGet name)
  | .hllEstimate name => .estimate (s.hllEstimate name)

section Ask

variable {s t : Structures} {name : Str}

section Answers

variable (s : Structures) (name : Str)

theorem queuePeek_eq : s.queuePeek name = (s.queueItems name).head? := by
  rw [queuePeek, queueItems]
  cases s.queues.lookup name <;> rfl

theorem queueSize_eq : s.queueSize name = (s.queueItems name).length := by
  rw [queueSize, queueItems]
  cases s.queues.lookup name <;> rfl

theorem queueContains_eq (v : Bytes) :
    s.queueContains name v = decide (v ∈ s.queueItems name) := by
  rw [queueContains, queueItems]
  cases s.queues.lookup name <;> rfl

theorem listGet_eq (index : Int32) : s.listGet name index =
    if index < 0 then none else (s.listGetAll name)[index.toNatClampNeg]? := by
  rw [listGet, listGetAll]
  cases s.lists.lookup name <;> rfl

theorem listSize_eq : s.listSize name = (s.listGetAll name).length := by
  rw [listSize, listGetAll]
  cases s.lists.lookup name <;> rfl

theorem listContains_eq (v : Bytes) :
    s.listContains name v = decide (v ∈ s.listGetAll name) := by
  rw [listContains, listGetAll]
  cases s.lists.lookup name <;> rfl

theorem setContains_eq (v : Bytes) :
    s.setContains name v = ((s.setDict name).lookup v).isSome := by
  rw [setContains, setDict]
  cases s.sets.lookup name <;> rfl

theorem setSize_eq : s.setSize name = (s.setDict name).entries.length := by
  rw [setSize, setDict]
  cases s.sets.lookup name <;> rfl

theorem setGetAll_eq : s.setGetAll name = (s.setDict name).entries.map Sigma.fst := by
  rw [setGetAll, setDict]
  cases s.sets.lookup name <;> rfl

theorem mmGet_eq (key : Bytes) :
    s.mmGet name key = ((s.multimapDict name).lookup key).getD [] := by
  rw [mmGet, multimapDict]
  cases s.multimaps.lookup name <;> rfl

theorem mmValueCount_eq (key : Bytes) :
    s.mmValueCount name key = ((s.multimapDict name).lookup key).elim 0 length := by
  rw [mmValueCount, multimapDict]
  cases s.multimaps.lookup name <;> rfl

theorem mmSize_eq :
    s.mmSize name = ((s.multimapDict name).entries.map fun e => e.2.length).sum := by
  rw [mmSize, multimapDict]
  cases s.multimaps.lookup name <;> rfl

end Answers

theorem set_perm (h : s.view .set name = t.view .set name) :
    (s.setDict name).entries.Perm (t.setDict name).entries := by
  refine entries_perm fun v => ?_
  have hv : ((s.setDict name).lookup v).isSome = ((t.setDict name).lookup v).isSome :=
    congrFun (View.members.inj h) v
  generalize (s.setDict name).lookup v = x at hv ⊢
  generalize (t.setDict name).lookup v = y at hv ⊢
  cases x <;> cases y <;> first | rfl | cases hv

theorem multimap_perm (h : s.view .multimap name = t.view .multimap name) :
    (s.multimapDict name).entries.Perm (t.multimapDict name).entries :=
  entries_perm fun key => congrFun (View.values.inj h) key

theorem ask_eq_of_view (h : ∀ kind name, s.view kind name = t.view kind name) (q : Query) :
    s.ask q = t.ask q := by
  have hqueue : ∀ q, s.queueItems q = t.queueItems q := fun q => View.items.inj (h .queue q)
  have hlist : ∀ q, s.listGetAll q = t.listGetAll q := fun q => View.items.inj (h .list q)
  have hset : ∀ q v, ((s.setDict q).lookup v).isSome = ((t.setDict q).lookup v).isSome :=
    fun q v => congrFun (View.members.inj (h .set q)) v
  have hmm : ∀ q key, (s.multimapDict q).lookup key = (t.multimapDict q).lookup key :=
    fun q key => congrFun (View.values.inj (h .multimap q)) key
  have hring : ∀ q, s.ringbuffers.lookup q = t.ringbuffers.lookup q := fun q =>
    View.ring.inj (h .ringbuffer q)
  cases q with
  | setSize name => rw [ask, ask, setSize_eq, setSize_eq, (set_perm (h .set name)).length_eq]
  | setGetAll name =>
    rw [ask, ask, setGetAll_eq, setGetAll_eq]
    exact congrArg Answer.bag (Multiset.coe_eq_coe.2 ((set_perm (h .set name)).map _))
  | mmSize name =>
    rw [ask, ask, mmSize_eq, mmSize_eq]
    exact congrArg Answer.size ((multimap_perm (h .multimap name)).map _).sum_nat
  | pnGet name => rw [ask, ask, View.count.inj (h .pncounter name)]
  | hllEstimate name =>
    rw [ask, ask, hllEstimate, hllEstimate, View.sketch.inj (h .hll name)]
  -- the other answers are read from one of these views alone
  | _ =>
    simp only [ask, queuePeek_eq, queueSize_eq, queueContains_eq, queueIsEmpty, listGet_eq,
      listSize_eq, listContains_eq, listIsEmpty, setContains_eq, mmGet_eq, mmValueCount_eq,
      rbReadOne, rbSize, rbCapacity, rbTail, rbHead, hqueue, hlist, hset, hmm, hring]

end Ask

/-! ## Installing a serialized state -/

section Install

variable {s t : Structures} {kind kind' : AuxKind} {name name' : Str} (v : Int64)

theorem getI64_putI64 (rest : Bytes) : getI64 (putI64 v ++ rest) = v := by
  rw [getI64, putI64, decode_take_encode (UInt64.toNat_lt v.toUInt64),
    int64_ofNat_toNat]

theorem length_putI64 : (putI64 v).length = 8 := encode_length 8 _

theorem drop_putI64 (rest : Bytes) : (putI64 v ++ rest).drop 8 = rest :=
  drop_encode 8 _ rest

def putValues (e : Bytes × List Bytes) : Bytes := Blob.put e.1 ++ Blob.putList e.2

theorem takeMultimap_putValues {entries : List (Bytes × List Bytes)}
    (h : ∀ e ∈ entries, (putValues e).length < 2 ^ 32) (mm : Dict Bytes (List Bytes)) :
    takeMultimap entries.length (entries.map putValues).flatten mm =
      entries.foldl (fun mm e => AList.insert e.1 e.2 mm) mm := by
  induction entries generalizing mm with
  | nil => rfl
  | cons e entries ih =>
    have hlen := h e mem_cons_self
    rw [putValues, length_append, length_put] at hlen
    rw [length_cons, map_cons, flatten_cons, putValues, append_assoc,
      takeMultimap, get_put (by omega)]
    dsimp only
    rw [getList_putList (fits_of_length (by omega))]
    exact ih (fun x hx => h x (mem_cons_of_mem e hx)) _

theorem lookup_takeMultimap {mm : Dict Bytes (List Bytes)}
    (h : (putMultimap mm.pairs).length < 2 ^ 32) (key : Bytes) :
    ¬ (putMultimap mm.pairs).length < 4 ∧
      (takeMultimap (decode ((putMultimap mm.pairs).take 4))
        ((putMultimap mm.pairs).drop 4) ∅).lookup key = mm.lookup key := by
  have hlen : (putMultimap mm.pairs).length = 4 + (mm.pairs.map putValues).flatten.length := by
    rw [putMultimap, length_append]
    rfl
  have hentry : ∀ e ∈ mm.pairs, (putValues e).length < 2 ^ 32 := fun e he => by
    have hle := (sublist_flatten_of_mem (mem_map_of_mem (f := putValues) he)).length_le
    omega
  have hcount : mm.pairs.length < 2 ^ 32 := by
    have hle : mm.pairs.length ≤ (mm.pairs.map putValues).flatten.length := by
      generalize mm.pairs = l
      induction l with
      | nil => exact Nat.zero_le _
      | cons e l ih =>
        rw [map_cons, flatten_cons, length_append, length_cons, putValues,
          length_append, length_put]
        omega
    omega
  refine ⟨by omega, ?_⟩
  rw [putMultimap, decode_take_encode hcount, drop_encode,
    show (fun e : Bytes × List Bytes => Blob.put e.1 ++ Blob.putList e.2) = putValues from rfl,
    takeMultimap_putValues hentry, lookup_foldl_pairs]

theorem lookup_foldl_elements (d : Dict Bytes Unit) (v : Bytes) :
    ((elements d).foldl (fun d v => AList.insert v () d) (∅ : Dict Bytes Unit)).lookup v =
      d.lookup v := by
  have hpairs : (elements d).foldl (fun d v => insert v () d) (∅ : Dict Bytes Unit) =
      d.pairs.foldl (fun d e => insert e.1 e.2 d) ∅ := by
    rw [elements, ← map_fst_pairs, foldl_map]
  rw [hpairs, lookup_foldl_pairs]

end Install

end Structures

inductive Content where
  | queue (l : List Bytes)
  | list (l : List Bytes)
  | set (d : Dict Bytes Unit)
  | multimap (mm : Dict Bytes (List Bytes))
  | ringbuffer (r : Ring)
  | pncounter (v : Int64)
  | hll (h : Hll)

def Content.kind : Content → AuxKind
  | .queue _ => .queue
  | .list _ => .list
  | .set _ => .set
  | .multimap _ => .multimap
  | .ringbuffer _ => .ringbuffer
  | .pncounter _ => .pncounter
  | .hll _ => .hll

def Structures.write : Content → Structures
  | .queue l => { s with queues := s.queues.insert name l }
  | .list l => { s with lists := s.lists.insert name l }
  | .set d => { s with sets := s.sets.insert name d }
  | .multimap mm => { s with multimaps := s.multimaps.insert name mm }
  | .ringbuffer r => { s with ringbuffers := s.ringbuffers.insert name r }
  | .pncounter v => { s with pncounters := s.pncounters.insert name v }
  | .hll h => { s with hlls := s.hlls.insert name h }

/-- Only the structure of the kind and name may have changed; it is there, or nothing has
changed and the kind is none that its installation creates. -/
structure Touched (s s' : Structures) (kind : AuxKind) (name : Str) : Prop where
  other : ∀ kind' name', kind' ≠ kind ∨ name' ≠ name → s'.view kind' name' = s.view kind' name'
  there : s'.Present kind name ∨ kind ≠ .hll ∧ s' = s

section Touched

open Structures

variable (s : Structures) {name : Str}

theorem touched_self {kind : AuxKind} (h : kind ≠ .hll) : Touched s s kind name :=
  ⟨fun _ _ _ => rfl, .inr ⟨h, rfl⟩⟩

theorem touched_write (c : Content) : Touched s (s.write name c) c.kind name where
  other kind' name' hne := by
    by_cases hkind : kind' = c.kind
    · subst hkind
      have hname := hne.resolve_left (not_not_intro rfl)
      cases c <;> simp [Content.kind, write, view, queueItems, listGetAll, setDict, multimapDict,
        pnGet, lookup_insert_ne hname]
    · cases c <;> cases kind' <;> first | rfl | exact absurd rfl hkind
  there := Or.inl (by cases c <;> simp [Content.kind, write, Present])

end Touched

namespace Structures

section Install

variable {s t : Structures} {kind kind' : AuxKind} {name name' : Str}

theorem view_installAux_of_ne (t : Structures) (data : Bytes) (h : kind' ≠ kind ∨ name' ≠ name) :
    (t.installAux kind name data).view kind' name' = t.view kind' name' := by
  cases kind with
  | queue => exact (touched_write t (.queue _)).other _ _ h
  | list => exact (touched_write t (.list _)).other _ _ h
  | set => exact (touched_write t (.set _)).other _ _ h
  | multimap =>
    rw [installAux]
    split
    · rfl
    · exact (touched_write t (.multimap _)).other _ _ h
  | ringbuffer =>
    rw [installAux]
    split
    · rfl
    · exact (touched_write t (.ringbuffer _)).other _ _ h
  | pncounter =>
    rw [installAux]
    split
    · rfl
    · exact (touched_write t (.pncounter _)).other _ _ h
  | hll => exact (touched_write t (.hll _)).other _ _ h

theorem view_installAux_of_present (t : Structures) (hthere : s.Present kind name)
    (hfits : (s.serializeAux kind name).length < 2 ^ 32) :
    (t.installAux kind name (s.serializeAux kind name)).view kind name = s.view kind name := by
  cases kind
  all_goals
    obtain ⟨x, hx⟩ := isSome_iff_exists.1 hthere
    rw [serializeAux, hx, elim_some] at hfits ⊢
  case queue | list =>
    simp only [installAux, view, queueItems, listGetAll, lookup_insert, hx]
    rw [← append_nil (putList x), getList_putList (fits_of_length hfits)]
  case set =>
    rw [installAux, view, view, setDict, setDict, hx, ← append_nil (putList (elements x)),
      getList_putList (fits_of_length hfits)]
    rw [lookup_insert, getD_some, getD_some]
    simp only [lookup_foldl_elements]
  case multimap =>
    have htake := lookup_takeMultimap hfits
    rw [pairs] at htake
    rw [installAux, if_neg (htake []).1, view, view, multimapDict, multimapDict, hx]
    rw [lookup_insert]
    exact congrArg View.values (funext fun key => (htake key).2)
  case ringbuffer =>
    rw [append_assoc, append_assoc] at hfits ⊢
    have hlen : ¬ (putI64 x.head ++ (putI64 x.tail ++ (putI64 x.cap ++ putList x.items))).length
        < 24 := by
      simp only [length_append, length_putI64]
      omega
    have hitems : Blob.Fits x.items := by
      refine fits_of_length ?_
      simp only [length_append, length_putI64] at hfits
      omega
    rw [installAux, if_neg hlen, view, view, lookup_insert, hx, getI64_putI64, drop_putI64,
      getI64_putI64, show (16 : ℕ) = 8 + 8 from rfl, ← drop_drop, drop_putI64, drop_putI64,
      getI64_putI64, show (24 : ℕ) = 8 + 8 + 8 from rfl, ← drop_drop, ← drop_drop,
      drop_putI64, drop_putI64, drop_putI64, ← append_nil (putList x.items),
      getList_putList hitems]
  case pncounter =>
    have hlen : ¬ (putI64 x).length < 8 := by
      rw [length_putI64]
      omega
    rw [installAux, if_neg hlen, view, view, pnGet, pnGet, lookup_insert, hx,
      ← append_nil (putI64 x), getI64_putI64]
  case hll => rw [installAux, view, view, lookup_insert, hx, Hll.fromBytes_toBytes]

/-- The state of a structure that is absent changes nothing where it is not seen either; an
estimator is not emitted while it is absent. -/
theorem view_installAux_of_absent (habsent : ¬ s.Present kind name) (hkind : kind ≠ .hll)
    (hview : t.view kind name = s.view kind name) :
    (t.installAux kind name (s.serializeAux kind name)).view kind name = s.view kind name := by
  cases kind
  case hll => exact absurd rfl hkind
  all_goals have hnone := not_isSome_iff_eq_none.1 habsent
  case multimap | ringbuffer | pncounter =>
    rw [serializeAux, hnone]
    exact hview
  all_goals
    simp only [serializeAux, installAux, view, queueItems, listGetAll, setDict, lookup_insert,
      hnone]
    rfl

theorem view_of_absent (h : ¬ s.Present kind name) :
    s.view kind name = ({} : Structures).view kind name := by
  cases kind
  all_goals
    have hnone := not_isSome_iff_eq_none.1 h
    simp only [view, queueItems, listGetAll, setDict, multimapDict, pnGet, hnone]
    rfl

theorem mem_auxNames : (kind, name) ∈ s.auxNames ↔ kind ≠ .hll ∧ s.Present kind name := by
  cases kind <;> simp [auxNames, Present, lookup_isSome, AList.mem_keys]

end Install

end Structures

end BonsaiGrid.Store
