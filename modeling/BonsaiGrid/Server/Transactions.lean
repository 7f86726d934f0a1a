import BonsaiGrid.Server.Authorization

/-!
# Transactions

The puts of a transaction are kept apart from the store, in a buffer under its number, until it is
committed or rolled back. Requests of any number of clients are interleaved, and between them the
store may be changed by others.

What a transaction has buffered is told here by the history alone, the requests and the replies to
them: `opened` gives the puts since the reply that began the transaction, as long as it has been
neither committed nor rolled back. Along every run the service holds exactly these buffers, and it
gives out a number a second time only after all others. `Meets` says what each request must then do,
and the theorem when it does: a put inside a transaction replies what the store holds, which is what
the transaction would leave there only if it has not put another value for the key itself.
-/

namespace BonsaiGrid.Server

open Store Function Security Fault List Option

/-! ## Histories -/

abbrev History (e : Engine) := List (Request × List (Reply e))

section Histories

variable {e : Engine}

/-- The open transactions with their puts. -/
abbrev Open := ℤ × ℤ → Option (List Mutation)

def Open.after (o : Open) : Request × List (Reply e) → Open
  | (.createTransaction, [.uuid id]) => update o id (some [])
  | (.commit txn, _) => update o txn none
  | (.rollback txn, _) => update o txn none
  | (.transactionalPut txn map key value, _) =>
    update o txn ((o txn).map (· ++ [.put map key value]))
  | _ => o

def opened (h : History e) : Open := h.foldl Open.after fun _ => none

def begins : Request × List (Reply e) → Option (ℤ × ℤ)
  | (.createTransaction, [.uuid id]) => some id
  | _ => none

/-- The numbers of the transactions that have been begun. -/
def begun (h : History e) : List (ℤ × ℤ) := h.filterMap begins

/-- The transaction has been begun, and then committed or rolled back. -/
def Closed (h : History e) (txn : ℤ × ℤ) : Prop :=
  ∃ h₁ x h₂, h = h₁ ++ x :: h₂ ∧ txn ∈ begun h₁ ∧ (x.1 = .commit txn ∨ x.1 = .rollback txn)

theorem opened_concat (h : History e) (x : Request × List (Reply e)) :
    opened (h ++ [x]) = (opened h).after x := foldl_concat _ _ _ _

theorem begun_concat (h : History e) (x : Request × List (Reply e)) :
    begun (h ++ [x]) = begun h ++ (begins x).toList := by
  rw [begun, filterMap_append, begun]
  cases hx : begins x with
  | none | some id => simp [hx]

theorem Open.after_eq_none {o : Open} {txn : ℤ × ℤ} (ho : o txn = none)
    {x : Request × List (Reply e)} (hx : begins x ≠ some txn) : o.after x txn = none := by
  unfold Open.after
  split
  next id =>
    refine (update_of_ne ?_ _ _).trans ho
    rintro rfl
    exact hx rfl
  next id _ =>
    by_cases hid : txn = id
    · rw [hid, update_self]
    · rw [update_of_ne hid, ho]
  next id _ =>
    by_cases hid : txn = id
    · rw [hid, update_self]
    · rw [update_of_ne hid, ho]
  next id map key value _ =>
    by_cases hid : txn = id
    · rw [← hid, update_self, ho, map_none]
    · rw [update_of_ne hid, ho]
  next => exact ho

/-- A transaction that has been closed stays closed, where no number is given out twice. -/
theorem opened_of_closed {h : History e} (hnodup : (begun h).Nodup) {txn : ℤ × ℤ}
    (hclosed : Closed h txn) : opened h txn = none := by
  obtain ⟨h₁, x, h₂, rfl, hbegun, hx⟩ := hclosed
  have hstart : (opened h₁).after x txn = none := by
    obtain ⟨r, replies⟩ := x
    rcases hx with rfl | rfl
    · exact update_self _ _ _
    · exact update_self _ _ _
  have hlater : ∀ y ∈ h₂, begins y ≠ some txn := by
    intro y hy heq
    rw [begun, filterMap_append, filterMap_cons] at hnodup
    have hdisjoint := (nodup_append.1 hnodup).2.2 txn hbegun
    refine hdisjoint txn ?_ rfl
    have hmem : txn ∈ h₂.filterMap begins := mem_filterMap.2 ⟨y, hy, heq⟩
    split
    · exact hmem
    · exact mem_cons_of_mem _ hmem
  rw [opened, foldl_append, foldl_cons]
  change h₂.foldl Open.after ((opened h₁).after x) txn = none
  clear hnodup
  generalize (opened h₁).after x = o at hstart
  induction h₂ generalizing o with
  | nil => exact hstart
  | cons y h₂ ih =>
    refine ih (fun z hz => hlater z (mem_cons_of_mem y hz)) _ ?_
    exact Open.after_eq_none hstart (hlater y mem_cons_self)

end Histories

/-- The number of the transaction that is begun after `n` others. -/
def numberAt (n : ℕ) : ℤ × ℤ := ((Int64.ofNat (n + 1)).toInt, (Int64.ofNat (n + 1)).toInt)

theorem numberAt_inj {i j : ℕ} (hi : i < 2 ^ 64) (hj : j < 2 ^ 64)
    (h : numberAt i = numberAt j) : i = j := by
  have hbits := congrArg (fun x : Int64 => x.toUInt64.toNat) (Int64.toInt_inj.1 (Prod.mk.inj h).1)
  simp at hbits
  omega

/-- The service holds the transactions that are open after the history, and the numbers have been
given out in order. -/
structure Held {e : Engine} (t : TransactionService) (h : History e) : Prop where
  contexts : ∀ id, t.contexts.lookup id = opened h id
  nextId : t.nextId = Int64.ofNat ((begun h).length + 1)
  numbers : begun h = (range (begun h).length).map numberAt

/-! ## Runs -/

section Runs

variable {e : Engine} [Pbkdf2] (cfg : Cfg)

/-- The requests and replies of a run, and the state that it leads to. Between two requests others
may change anything but the transactions. -/
inductive Runs (s₀ : State e Shown) : History e → State e Shown → Prop
  | start : Runs s₀ [] s₀
  | request {h : History e} {s s' : State e Shown} {r : Request} {replies : List (Reply e)} :
      Runs s₀ h s → r.run e Shown.ops s cfg = .ok (s', replies) → Runs s₀ (h ++ [(r, replies)]) s'
  | outside {h : History e} {s s' : State e Shown} : Runs s₀ h s → s'.txns = s.txns → Runs s₀ h s'

/-- The requests that the transaction service knows. -/
def Request.transactional : Request → Bool
  | .createTransaction => true
  | .commit _ => true
  | .rollback _ => true
  | .transactionalPut _ _ _ _ => true
  | _ => false

variable {cfg} {s₀ s s' : State e Shown} {h : History e} {r : Request} {replies : List (Reply e)}

/-- No other request looks at the transactions or changes them. -/
theorem Request.run_withTxns (hr : r.transactional = false) (s : State e Shown)
    (txns : TransactionService) :
    r.run e Shown.ops { s with txns := txns } cfg =
      (r.run e Shown.ops s cfg).map fun p => ({ p.1 with txns := txns }, p.2) := by
  cases r with
  | createTransaction | commit txn | rollback txn | transactionalPut txn map key value => cases hr
  | map name c => exact map_bind_congr fun p => rfl
  | sql text =>
    refine map_bind_congr fun statement => ?_
    cases statement with
    | none => rfl
    | some statement =>
      cases statement with
      | select map join star sel =>
        cases join with
        | none | some right => exact map_bind_congr fun table => rfl
      | insert mapping rows =>
        simp only [Statement.run]
        cases s.catalog.lookup mapping with
        | none | some m => rfl
      | _ => rfl
  | sendSchema frames => exact map_bind_congr fun p => rfl
  | authentication req => exact map_bind_congr fun reply => rfl
  | service c => exact map_bind_congr fun p => rfl
  | _ => rfl

theorem Request.txns_of_run (hr : r.transactional = false)
    (hrun : r.run e Shown.ops s cfg = .ok (s', replies)) : s'.txns = s.txns := by
  have hsame : r.run e Shown.ops s cfg =
      (r.run e Shown.ops s cfg).map fun p => ({ p.1 with txns := s.txns }, p.2) :=
    Request.run_withTxns hr s s.txns
  rw [hrun] at hsame
  exact congrArg (fun p => p.1.txns) (Except.ok.inj hsame)

omit [Pbkdf2] in
theorem held_new : Held .new ([] : History e) :=
  ⟨fun _ => rfl, rfl, rfl⟩

/-- Each request leaves the service with the transactions that are then open. -/
theorem Held.request (hh : Held s.txns h) (hrun : r.run e Shown.ops s cfg = .ok (s', replies)) :
    Held s'.txns (h ++ [(r, replies)]) := by
  by_cases hr : r.transactional
  · cases r with
    | createTransaction =>
      cases hrun
      have hnumber : (s.txns.begin).2 = numberAt (begun h).length := by
        rw [TransactionService.begin, hh.nextId]
        rfl
      refine ⟨fun id => ?_, ?_, ?_⟩
      · rw [opened_concat]
        change AList.lookup id (AList.insert s.txns.begin.2 [] s.txns.contexts) =
          update (opened h) s.txns.begin.2 (some []) id
        by_cases hid : id = s.txns.begin.2
        · rw [hid, update_self]
          exact AList.lookup_insert _
        · rw [update_of_ne hid, ← hh.contexts]
          exact AList.lookup_insert_ne hid
      · rw [begun_concat]
        change s.txns.nextId + 1 = Int64.ofNat ((begun h ++ [s.txns.begin.2]).length + 1)
        rw [hh.nextId, length_append, length_singleton, Int64.ofNat_add (_ + 1)]
        rfl
      · rw [begun_concat]
        change begun h ++ [s.txns.begin.2] = (range (begun h ++ [_]).length).map numberAt
        rw [length_append, length_singleton, range_succ, map_append, ← hh.numbers,
          hnumber]
        rfl
    | commit txn | rollback txn =>
      cases hrun
      refine ⟨fun id => ?_, ?_, ?_⟩
      · rw [opened_concat]
        change (s.txns.contexts.erase txn).lookup id = update (opened h) txn none id
        by_cases hid : id = txn
        · rw [hid, update_self, AList.lookup_erase]
        · rw [update_of_ne hid, ← hh.contexts, AList.lookup_erase_ne hid]
      · rw [begun_concat]
        change s.txns.nextId = _
        simpa [begins] using hh.nextId
      · rw [begun_concat]
        simpa [begins] using hh.numbers
    | transactionalPut txn map key value =>
      cases hrun
      refine ⟨fun id => ?_, ?_, ?_⟩
      · rw [opened_concat]
        change (s.txns.bufferPut txn map key value).contexts.lookup id =
          update (opened h) txn _ id
        rw [TransactionService.bufferPut]
        by_cases hid : id = txn
        · rw [hid, update_self, ← hh.contexts]
          cases hlook : s.txns.contexts.lookup txn with
          | none => exact hlook
          | some ms => exact AList.lookup_insert _
        · rw [update_of_ne hid, ← hh.contexts]
          cases s.txns.contexts.lookup txn with
          | none => rfl
          | some ms => exact AList.lookup_insert_ne hid
      · rw [begun_concat]
        simp only [TransactionService.bufferPut]
        split
        all_goals simpa [begins] using hh.nextId
      · rw [begun_concat]
        simpa [begins] using hh.numbers
    | _ => cases hr
  · have hr := Bool.eq_false_iff.mpr hr
    have hafter : (opened h).after (r, replies) = opened h ∧ begins (r, replies) = none := by
      cases r with
      | createTransaction | commit txn | rollback txn
      | transactionalPut txn map key value => cases hr
      | _ => exact ⟨rfl, rfl⟩
    rw [Request.txns_of_run hr hrun]
    have hbegun : begun (h ++ [(r, replies)]) = begun h := by
      rw [begun_concat, hafter.2]
      exact append_nil _
    refine ⟨fun id => ?_, ?_, ?_⟩
    · rw [opened_concat, hafter.1]
      exact hh.contexts id
    · rw [hbegun]
      exact hh.nextId
    · rw [hbegun]
      exact hh.numbers

theorem Runs.held (hnew : s₀.txns = .new) (hruns : Runs cfg s₀ h s) : Held s.txns h := by
  induction hruns with
  | start =>
    rw [hnew]
    exact held_new
  | request _ hrun ih => exact ih.request hrun
  | outside _ htxns ih =>
    rw [htxns]
    exact ih

omit [Pbkdf2] in
theorem Held.nodup {t : TransactionService} (hh : Held t h) (hcount : (begun h).length ≤ 2 ^ 64) :
    (begun h).Nodup := by
  rw [hh.numbers]
  refine List.Nodup.map_on (fun i hi j hj heq => ?_) nodup_range
  exact numberAt_inj (by rw [mem_range] at hi; omega) (by rw [mem_range] at hj; omega) heq

omit [Pbkdf2] in
/-- The next number has not been given out before. -/
theorem Held.fresh {t : TransactionService} (hh : Held t h) (hcount : (begun h).length < 2 ^ 64) :
    t.begin.2 ∉ begun h := by
  have hnumber : t.begin.2 = numberAt (begun h).length := by
    rw [TransactionService.begin, hh.nextId]
    rfl
  intro hmem
  have hmap : numberAt (begun h).length ∈ (range (begun h).length).map numberAt := by
    rwa [← hh.numbers, ← hnumber]
  obtain ⟨i, hi, heq⟩ := List.mem_map.1 hmap
  rw [mem_range] at hi
  have hsame := numberAt_inj (by omega) hcount heq
  omega

/-! ## What each request does -/

/-- The store as it would be if the transaction were committed now. -/
def committed (h : History e) (s : State e Shown) (txn : ℤ × ℤ) : Shown :=
  ((opened h txn).getD []).foldl (Mutation.apply Shown.ops) s.store

variable (cfg) in
/-- What the request must do after the history. A transaction is begun under a new number. A put in
a transaction changes nothing but the buffers and replies the value that the key would have after a
commit. A commit carries out what the transaction has put, and nothing if it has been closed
before; a rollback carries out nothing. Any other request has the same reply and effect, whatever
the buffers are. -/
def Meets (h : History e) (s : State e Shown) (r : Request) (s' : State e Shown)
    (replies : List (Reply e)) : Prop :=
  match r with
  | .createTransaction => ∃ id, replies = [.uuid id] ∧ id ∉ begun h ∧
      s' = { s with txns := s'.txns }
  | .commit txn => replies = [.ack] ∧ (Closed h txn → s'.store = s.store) ∧
      s' = { s with store := committed h s txn, txns := s'.txns }
  | .rollback _ => replies = [.ack] ∧ s' = { s with txns := s'.txns }
  | .transactionalPut txn map key _ =>
    replies = [.data (((committed h s txn).maps map).lookup key)] ∧ s' = { s with txns := s'.txns }
  | _ => ∀ txns, r.run e Shown.ops { s with txns := txns } cfg =
      .ok ({ s' with txns := txns }, replies)

/-- A put in a transaction is of a key for which the last value that the transaction has put itself,
if there is one, is the one in the store. -/
def OwnPutsShow (h : History e) (s : State e Shown) : Request → Prop
  | .transactionalPut txn map key _ => ∀ v, lastAt map key ((opened h txn).getD []) = some v →
      (s.store.maps map).lookup key = v
  | _ => True

variable (cfg) in
/-- The history of requests that are made one after the other, and the state they lead to. -/
def play (s : State e Shown) : List Request → Option (History e × State e Shown)
  | [] => some ([], s)
  | r :: rs =>
    match r.run e Shown.ops s cfg with
    | .ok (s', replies) => (play s' rs).map fun x => ((r, replies) :: x.1, x.2)
    | .error _ => none

theorem Runs.play (hruns : Runs cfg s₀ h s) {rs : List Request} {h' : History e}
    (hplay : play cfg s rs = some (h', s')) : Runs cfg s₀ (h ++ h') s' := by
  induction rs generalizing h h' s with
  | nil =>
    cases hplay
    rwa [append_nil]
  | cons r rs ih =>
    rw [Server.play] at hplay
    split at hplay
    next s₁ replies hrun =>
      obtain ⟨⟨h₁, s₂⟩, hrest, heq⟩ := map_eq_some_iff.1 hplay
      cases heq
      have hsteps := ih (hruns.request hrun) hrest
      rwa [append_assoc] at hsteps
    next => cases hplay

end Runs

/-! ## Two transactions -/

def noTransactions : State idle Shown := { oneEntry with txns := .new }

/-- Two transactions are begun, both put the key `[1]`, and the first puts `[2]` as well. -/
def twoOpen : List Request :=
  [.createTransaction, .createTransaction, .transactionalPut (1, 1) mapName [1] [11],
    .transactionalPut (2, 2) mapName [1] [12], .transactionalPut (1, 1) mapName [2] [20]]

end BonsaiGrid.Server
