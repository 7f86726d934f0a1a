import BonsaiGrid.Persistence.Thread

/-!
# Whose effect a cell is

A cell of a key is tagged with the mutation of the history that left it. While the stamps of a key
rise, a replay of records never goes back behind the tag.
-/

namespace BonsaiGrid.Persistence

open Store List Nat

variable (history : List WalRecord)

def nth (i : ℕ) : WalRecord :=
  history.getD i (.mapRemove 0 ⟨[], rfl⟩ [])

def nths (indices : List ℕ) : List WalRecord := indices.map (nth history)

def recordCell : WalRecord → Option Cell
  | .mapPut stamp _ _ _ value => some ⟨value, 0, stamp⟩
  | _ => none

def putStamp : WalRecord → Option ℕ
  | .mapPut stamp .. => some stamp
  | _ => none

/-- The cell is what the tagged mutation left of the key, or what there is before any. -/
def Tagged (mk : Str × Bytes) (tag : Option ℕ) (cell : Option Cell) :
    Prop :=
  match tag with
  | none => cell = none
  | some i => i < history.length ∧ recordKey (nth history i) = some mk ∧
      cell = recordCell (nth history i)

def Covers (tag : Option ℕ) (i : ℕ) : Prop := ∃ j, tag = some j ∧ i ≤ j

/-- Among the known mutations the stamps of the puts rise. -/
def StampsRise (known : Set ℕ) : Prop :=
  ∀ i ∈ known, ∀ j ∈ known, i < j → ∀ s s', putStamp (nth history i) = some s →
    putStamp (nth history j) = some s' → s < s'

variable {r : WalRecord}

section History

variable {history : List WalRecord} {mk : Str × Bytes} {tag : Option ℕ} {cell : Option Cell}
  {i : ℕ} {indices : List ℕ}

theorem getElem?_eq_nth (h : i < history.length) : history[i]? = some (nth history i) := by
  rw [nth, getD_eq_getElem?_getD, List.getElem?_eq_getElem h]
  rfl

theorem nth_of_getElem? (h : history[i]? = some r) :
    i < history.length ∧ nth history i = r := by
  refine ⟨(List.getElem?_eq_some_iff.1 h).1, ?_⟩
  rw [nth, getD_eq_getElem?_getD, h]
  rfl

theorem nth_append (h : i < history.length) (later : List WalRecord) :
    nth (history ++ later) i = nth history i := by
  rw [nth, nth, getD_append _ _ _ _ h]

theorem nth_length (history : List WalRecord) (r : WalRecord) :
    nth (history ++ [r]) history.length = r := by
  rw [nth, getD_eq_getElem?_getD, List.getElem?_concat_length]
  rfl

theorem nths_append (h : ∀ i ∈ indices, i < history.length) (later : List WalRecord) :
    nths (history ++ later) indices = nths history indices :=
  map_congr_left fun i hi => nth_append (h i hi) later

theorem Tagged.mono (h : Tagged history mk tag cell) (later : List WalRecord) :
    Tagged (history ++ later) mk tag cell := by
  cases tag with
  | none => exact h
  | some i =>
    obtain ⟨hlt, hkey, hcell⟩ := h
    refine ⟨lt_of_lt_of_le hlt ?_, ?_, ?_⟩
    · rw [length_append]
      exact le_add_right _ _
    · rwa [nth_append hlt]
    · rwa [nth_append hlt]

theorem Tagged.valueAfter (h : Tagged history mk tag cell) :
    ∃ p ≤ history.length, (∀ i, Covers tag i → i < p) ∧
      cell.map Cell.val = valueAfter (history.take p) mk := by
  cases tag with
  | none =>
    refine ⟨0, zero_le _, fun i hi => ?_, ?_⟩
    · obtain ⟨j, hj, -⟩ := hi
      cases hj
    · rw [show cell = none from h]
      rfl
  | some j =>
    obtain ⟨hlt, hkey, hcell⟩ := h
    refine ⟨j + 1, hlt, fun i hi => ?_, ?_⟩
    · obtain ⟨k, hk, hle⟩ := hi
      cases hk
      exact lt_succ_of_le hle
    · have htake : history.take (j + 1) = history.take j ++ [nth history j] := by
        rw [take_add_one, getElem?_eq_nth hlt]
        rfl
      rw [hcell, htake, Persistence.valueAfter, foldl_append, foldl_cons,
        if_pos hkey]
      cases nth history j with
      | mapPut | mapRemove | auxState => rfl

theorem StampsRise.mono {known known' : Set ℕ} (h : StampsRise history known)
    (hsub : known' ⊆ known) : StampsRise history known' :=
  fun i hi j hj => h i (hsub hi) j (hsub hj)

end History

/-! ## Replay -/

theorem replayCell_of_ne {mk : Str × Bytes} (h : recordKey r ≠ some mk)
    (c : Contents) : replayCell c r mk = c mk := by
  cases r with
  | mapPut stamp ttlMs map key value | mapRemove stamp map key =>
    exact Function.update_of_ne (fun heq => h (congrArg some heq.symm)) _ _
  | auxState => rfl

theorem foldl_replayCell_of_ne {records : List WalRecord} {mk : Str × Bytes}
    (h : ∀ r ∈ records, recordKey r ≠ some mk) (c : Contents) :
    records.foldl replayCell c mk = c mk := by
  induction records generalizing c with
  | nil => rfl
  | cons r records ih =>
    rw [foldl_cons, ih (fun x hx => h x (mem_cons_of_mem r hx)),
      replayCell_of_ne (h r mem_cons_self)]

section Tags

variable {history : List WalRecord} {known : Set ℕ} {mk : Str × Bytes} {tag : Option ℕ}
  {c : Contents} {i : ℕ}

theorem Tagged.replayCell (hrise : StampsRise history known) (h : Tagged history mk tag (c mk))
    (htag : ∀ j, tag = some j → j ∈ known) (hi : i ∈ known) (hlt : i < history.length)
    (hkey : recordKey (nth history i) = some mk) :
    ∃ tag', Tagged history mk tag' (Persistence.replayCell c (nth history i) mk) ∧ Covers tag' i ∧
      (tag' = tag ∨ tag' = some i) := by
  have htaken : ∀ cell, cell = recordCell (nth history i) → Tagged history mk (some i) cell :=
    fun cell hcell => ⟨hlt, hkey, hcell⟩
  have hself : Covers (some i) i := ⟨i, rfl, le_refl i⟩
  cases hr : nth history i with
  | auxState =>
    rw [hr] at hkey
    cases hkey
  | mapRemove stamp map key =>
    rw [hr] at hkey
    cases hkey
    refine ⟨some i, htaken _ ?_, hself, .inr rfl⟩
    rw [hr]
    exact Function.update_self _ _ _
  | mapPut stamp ttlMs map key value =>
    rw [hr] at hkey
    cases hkey
    rw [show Persistence.replayCell c (.mapPut stamp ttlMs map key value) (map, key) =
      some (Inner.mergeCell (c (map, key)) ⟨value, 0, stamp⟩ true) from Function.update_self _ _ _]
    cases hcell : c (map, key) with
    | none =>
      exact ⟨some i, htaken _ (by rw [hr]; rfl), hself, .inr rfl⟩
    | some cell =>
      rw [Inner.mergeCell]
      split
      next => exact ⟨some i, htaken _ (by rw [hr]; rfl), hself, .inr rfl⟩
      next hge =>
        rw [hcell] at h
        refine ⟨tag, h, ?_, .inl rfl⟩
        cases tag with
        | none => cases h
        | some j =>
          refine ⟨j, rfl, ?_⟩
          by_contra hji
          obtain ⟨-, -, hleft⟩ := h
          cases hj : nth history j with
          | mapRemove | auxState => rw [hj] at hleft; cases hleft
          | mapPut stamp' ttlMs' map' key' value' =>
            rw [hj] at hleft
            cases hleft
            exact hge ⟨rfl, hrise j (htag j rfl) i hi (by omega) stamp' stamp
              (by rw [hj]; rfl) (by rw [hr]; rfl)⟩

theorem Tagged.replay {indices : List ℕ} (hrise : StampsRise history known)
    (h : Tagged history mk tag (c mk)) (htag : ∀ j, tag = some j → j ∈ known)
    (hsorted : indices.Pairwise (· < ·)) (hknown : ∀ i ∈ indices, i ∈ known)
    (hlt : ∀ i ∈ indices, i < history.length) :
    ∃ tag', Tagged history mk tag' ((nths history indices).foldl Persistence.replayCell c mk) ∧
      (∀ i ∈ indices, recordKey (nth history i) = some mk → Covers tag' i) ∧
      (tag' = tag ∨ ∃ i ∈ indices, tag' = some i) ∧
      ((∀ i ∈ indices, recordKey (nth history i) ≠ some mk) → tag' = tag) := by
  induction indices generalizing c tag with
  | nil => exact ⟨tag, h, fun i hi => absurd hi (by simp), .inl rfl, fun _ => rfl⟩
  | cons i indices ih =>
    have hi := hknown i mem_cons_self
    have hlti := hlt i mem_cons_self
    rw [pairwise_cons] at hsorted
    obtain ⟨tag₁, h₁, hcover₁, htag₁, hstay₁⟩ : ∃ tag₁,
        Tagged history mk tag₁ (Persistence.replayCell c (nth history i) mk) ∧
        (recordKey (nth history i) = some mk → Covers tag₁ i) ∧ (tag₁ = tag ∨ tag₁ = some i) ∧
        (recordKey (nth history i) ≠ some mk → tag₁ = tag) := by
      by_cases hkey : recordKey (nth history i) = some mk
      · obtain ⟨tag₁, h₁, hcover, hor⟩ := h.replayCell hrise htag hi hlti hkey
        exact ⟨tag₁, h₁, fun _ => hcover, hor, fun hne => absurd hkey hne⟩
      · exact ⟨tag, by rwa [replayCell_of_ne hkey], fun heq => absurd heq hkey, .inl rfl,
          fun _ => rfl⟩
    have hknown₁ : ∀ j, tag₁ = some j → j ∈ known := by
      intro j hj
      rcases htag₁ with heq | heq
      · exact htag j (heq ▸ hj)
      · rw [heq] at hj
        cases hj
        exact hi
    obtain ⟨tag', h', hcover', htag', hstay'⟩ := ih h₁ hknown₁ hsorted.2
      (fun j hj => hknown j (mem_cons_of_mem i hj))
      fun j hj => hlt j (mem_cons_of_mem i hj)
    refine ⟨tag', h', fun j hj hkey => ?_, ?_, fun hnone => ?_⟩
    · rcases mem_cons.1 hj with rfl | hj
      · -- a later record on the key covers the first one too
        by_cases hlater : ∃ k ∈ indices, recordKey (nth history k) = some mk
        · obtain ⟨k, hk, hkeyk⟩ := hlater
          obtain ⟨l, hl, hle⟩ := hcover' k hk hkeyk
          exact ⟨l, hl, le_trans (le_of_lt (hsorted.1 k hk)) hle⟩
        · rw [hstay' fun k hk hkeyk => hlater ⟨k, hk, hkeyk⟩]
          exact hcover₁ hkey
      · exact hcover' j hj hkey
    · rcases htag' with heq | ⟨j, hj, heq⟩
      · rw [heq]
        rcases htag₁ with heq₁ | heq₁
        · exact .inl heq₁
        · exact .inr ⟨i, mem_cons_self, heq₁⟩
      · exact .inr ⟨j, mem_cons_of_mem i hj, heq⟩
    · rw [hstay' fun k hk => hnone k (mem_cons_of_mem i hk),
        hstay₁ (hnone i mem_cons_self)]

end Tags

/-! ## The log and the clock of a store that recovers -/

variable {s : Store}

theorem applyRecord_walSink (h : s.walSink = none) (env : StoreEnv) (r : WalRecord) :
    (applyRecord s env r).walSink = none := by
  cases r with
  | mapPut stamp ttlMs map key value =>
    exact congrArg (Option.map (· ++ [.mapPut stamp ttlMs map key value])) h
  | mapRemove stamp map key =>
    exact congrArg (Option.map
      (· ++ [.mapRemove (nextStampAt s.memberId s.stampSeq env.wallMs) map key])) h
  | auxState => exact h

theorem replay_walSink (h : s.walSink = none) (records : List (StoreEnv × WalRecord)) :
    (replay s records).walSink = none := by
  induction records generalizing s with
  | nil => exact h
  | cons r records ih => exact ih (applyRecord_walSink h r.1 r.2)

/-- Each stamp that a remove of the replay draws is in range. -/
def DrawsInRange : Store → List (StoreEnv × WalRecord) → Prop
  | _, [] => True
  | s, r :: records =>
    (∀ stamp map key, r.2 = .mapRemove stamp map key → InRange s.stampSeq r.1.wallMs) ∧
      DrawsInRange (applyRecord s r.1 r.2) records

instance decidableDraws (r : WalRecord) (seq physMs : ℕ) :
    Decidable (∀ stamp map key, r = .mapRemove stamp map key → InRange seq physMs) :=
  match r with
  | .mapRemove stamp map key =>
    decidable_of_iff (InRange seq physMs) ⟨fun h _ _ _ _ => h, fun h => h stamp map key rfl⟩
  | .mapPut .. | .auxState .. => isTrue fun _ _ _ heq => by cases heq

instance decidableDrawsInRange :
    (s : Store) → (records : List (StoreEnv × WalRecord)) → Decidable (DrawsInRange s records)
  | _, [] => isTrue trivial
  | s, r :: records =>
    have := decidableDrawsInRange (applyRecord s r.1 r.2) records
    inferInstanceAs (Decidable (_ ∧ _))

theorem applyRecord_clock {env : StoreEnv}
    (hstamp : ∀ stamp, putStamp r = some stamp → stamp < 2 ^ 64)
    (hdraw : ∀ stamp map key, r = .mapRemove stamp map key → InRange s.stampSeq env.wallMs) :
    s.stampSeq / 2 ^ 7 ≤ (applyRecord s env r).stampSeq / 2 ^ 7 ∧
      ∀ stamp, putStamp r = some stamp → stamp / 2 ^ 7 ≤ (applyRecord s env r).stampSeq / 2 ^ 7 := by
  cases r with
  | mapPut stamp ttlMs map key value =>
    obtain ⟨hseq, hext⟩ := clock_le_observeStamp s.memberId s.stampSeq (hstamp stamp rfl)
    refine ⟨hseq, fun stamp' heq => ?_⟩
    cases heq
    exact hext
  | mapRemove stamp map key =>
    exact ⟨le_of_lt (clock_lt_nextStampAt s.memberId (hdraw stamp map key rfl)),
      fun stamp' heq => absurd heq (by simp [putStamp])⟩
  | auxState => exact ⟨le_refl _, fun stamp' heq => absurd heq (by simp [putStamp])⟩

theorem replay_clock {records : List (StoreEnv × WalRecord)}
    (hstamp : ∀ r ∈ records, ∀ stamp, putStamp r.2 = some stamp → stamp < 2 ^ 64)
    (hdraw : DrawsInRange s records) :
    s.stampSeq / 2 ^ 7 ≤ (replay s records).stampSeq / 2 ^ 7 ∧
      ∀ r ∈ records, ∀ stamp, putStamp r.2 = some stamp →
        stamp / 2 ^ 7 ≤ (replay s records).stampSeq / 2 ^ 7 := by
  induction records generalizing s with
  | nil => exact ⟨le_refl _, fun r hr => absurd hr (by simp)⟩
  | cons r records ih =>
    obtain ⟨hseq, hput⟩ := applyRecord_clock (hstamp r mem_cons_self) hdraw.1
    obtain ⟨hseq', hput'⟩ := ih (fun x hx => hstamp x (mem_cons_of_mem r hx)) hdraw.2
    refine ⟨le_trans hseq hseq', fun x hx stamp heq => ?_⟩
    rcases mem_cons.1 hx with rfl | hx
    · exact le_trans (hput stamp heq) hseq'
    · exact hput' x hx stamp heq

end BonsaiGrid.Persistence
