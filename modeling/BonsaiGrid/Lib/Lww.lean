import Mathlib.Data.List.Basic

/-!
# Two replicas of a register

Each of two replicas holds a register. It puts values and removes them, and sends what it did to
the other replica, which merges values by their stamps and removes as told.
-/

namespace Lww

open List

/-! ## Links -/

/-- What was sent and not acknowledged: first what has arrived, then what is to arrive. -/
structure Link (β : Type*) where
  sent : List β := []
  pending : List β := []

namespace Link

variable {β γ : Type*}

def unacked (l : Link β) : List β := l.sent ++ l.pending

def push (l : Link β) (u : β) : Link β := { l with pending := l.pending ++ [u] }

def advance (l : Link β) : Link β := ⟨l.sent ++ l.pending.take 1, l.pending.drop 1⟩

def ack (l : Link β) : Link β := ⟨[], l.pending⟩

def resend (l : Link β) : Link β := ⟨[], l.unacked⟩

def filterMap (f : β → Option γ) (l : Link β) : Link γ :=
  ⟨l.sent.filterMap f, l.pending.filterMap f⟩

variable {f : β → Option γ} {l : Link β} {u : β}

@[simp] theorem unacked_push : (l.push u).unacked = l.unacked ++ [u] :=
  (append_assoc ..).symm

@[simp] theorem unacked_advance : l.advance.unacked = l.unacked := by
  rw [unacked, unacked, advance, append_assoc, take_append_drop]

@[simp] theorem unacked_filterMap : (l.filterMap f).unacked = l.unacked.filterMap f :=
  filterMap_append.symm

theorem filterMap_push_none (h : f u = none) : (l.push u).filterMap f = l.filterMap f := by
  simp [filterMap, push, h]

theorem filterMap_push_some {v : γ} (h : f u = some v) :
    (l.push u).filterMap f = (l.filterMap f).push v := by
  simp [filterMap, push, h]

theorem filterMap_advance_none (hu : l.pending.head? = some u) (h : f u = none) :
    l.advance.filterMap f = l.filterMap f := by
  obtain ⟨us, hus⟩ := head?_eq_some_iff.1 hu
  simp [filterMap, advance, hus, h]

theorem filterMap_advance_some {v : γ} (hu : l.pending.head? = some u) (h : f u = some v) :
    l.advance.filterMap f = (l.filterMap f).advance := by
  obtain ⟨us, hus⟩ := head?_eq_some_iff.1 hu
  simp [filterMap, advance, hus, h]

theorem filterMap_resend : l.resend.filterMap f = (l.filterMap f).resend := by
  simp [filterMap, resend, unacked]

end Link

/-! ## Registers -/

section Register

variable {α : Type*} (stamp : α → ℕ)

def merge : Option α → α → α
  | none, x => x
  | some y, x => if stamp y < stamp x then x else y

def update (c : Option α) : Option α → Option α
  | none => none
  | some x => some (merge stamp c x)

def replay (c : Option α) (us : List (Option α)) : Option α := us.foldl (update stamp) c

def Absorbs (c : Option α) (x : α) : Prop := ∃ y, c = some y ∧ stamp x ≤ stamp y

variable {stamp} {a b c : Option α} {x y : α} {us vs : List (Option α)}

theorem replay_append : replay stamp c (us ++ vs) = replay stamp (replay stamp c us) vs :=
  foldl_append

theorem replay_concat (u : Option α) :
    replay stamp c (us ++ [u]) = update stamp (replay stamp c us) u :=
  replay_append

theorem merge_of_lt (h : ∀ y, c = some y → stamp y < stamp x) : merge stamp c x = x := by
  cases c with
  | none => rfl
  | some y => exact if_pos (h y rfl)

theorem Absorbs.update_eq (h : Absorbs stamp c x) : update stamp c (some x) = c := by
  obtain ⟨y, rfl, hle⟩ := h
  rw [update, merge, if_neg (Nat.not_lt.2 hle)]

theorem absorbs_update_self (c : Option α) (x : α) : Absorbs stamp (update stamp c (some x)) x := by
  refine ⟨_, rfl, ?_⟩
  cases c with
  | none => exact Nat.le_refl _
  | some y =>
    rw [merge]
    split
    next => exact Nat.le_refl _
    next hge => exact Nat.not_lt.1 hge

theorem Absorbs.update (h : Absorbs stamp c y) (x : α) :
    Absorbs stamp (update stamp c (some x)) y := by
  obtain ⟨z, rfl, hle⟩ := h
  refine ⟨_, rfl, ?_⟩
  rw [merge]
  split
  next hlt => exact Nat.le_trans hle (Nat.le_of_lt hlt)
  next => exact hle

theorem Absorbs.replay (h : Absorbs stamp c x) (hus : none ∉ us) :
    Absorbs stamp (replay stamp c us) x := by
  induction us generalizing c with
  | nil => exact h
  | cons u us ih =>
    rw [mem_cons, not_or] at hus
    cases u with
    | none => exact absurd rfl hus.1
    | some y => exact ih (h.update y) hus.2

theorem replay_of_absorbs (h : ∀ u ∈ us, ∃ x, u = some x ∧ Absorbs stamp c x) :
    replay stamp c us = c := by
  induction us with
  | nil => rfl
  | cons u us ih =>
    obtain ⟨x, rfl, hx⟩ := h u mem_cons_self
    rw [replay, foldl_cons, hx.update_eq]
    exact ih fun v hv => h v (mem_cons_of_mem _ hv)

theorem replay_of_remove (h : none ∈ us) (c c' : Option α) :
    replay stamp c us = replay stamp c' us := by
  induction us generalizing c c' with
  | nil => cases h
  | cons u us ih =>
    rcases mem_cons.1 h with rfl | h
    · rfl
    · exact ih h _ _

theorem replay_put (hus : none ∉ us) (ha : ∀ y, a = some y → stamp y < stamp x)
    (hne : ∀ y, some y ∈ us → stamp y ≠ stamp x) :
    replay stamp (some x) us = update stamp (replay stamp a us) (some x) := by
  induction us generalizing a with
  | nil => exact congrArg some (merge_of_lt ha).symm
  | cons u us ih =>
    rw [mem_cons, not_or] at hus
    cases u with
    | none => exact absurd rfl hus.1
    | some y =>
      have hne' : ∀ z, some z ∈ us → stamp z ≠ stamp x := fun z hz =>
        hne z (mem_cons_of_mem _ hz)
      rw [replay, replay, foldl_cons, foldl_cons]
      rcases Nat.lt_or_gt_of_ne (hne y mem_cons_self) with hlt | hgt
      · have hkeep : update stamp (some x) (some y) = some x := by
          rw [update, merge, if_neg (Nat.lt_asymm hlt)]
        rw [hkeep]
        refine ih hus.2 (fun z hz => ?_) hne'
        obtain rfl := Option.some.inj hz
        cases a with
        | none => exact hlt
        | some w =>
          rw [merge]
          split
          next => exact hlt
          next => exact ha w rfl
      · have hleft : update stamp (some x) (some y) = some y := by
          rw [update, merge, if_pos hgt]
        have hright : update stamp a (some y) = some y :=
          congrArg some (merge_of_lt fun z hz => Nat.lt_trans (ha z hz) hgt)
        have habsorbs : Absorbs stamp (some y) x := ⟨y, rfl, Nat.le_of_lt hgt⟩
        rw [hleft, hright]
        exact (habsorbs.replay hus.2).update_eq.symm

end Register

/-! ## Agreement -/

section Agreement

variable {α : Type*} (stamp : α → ℕ)

/-- Nothing is removed: the registers agree up to the values on their way. -/
structure Settled (a b : Option α) (s t : Link (Option α)) : Prop where
  puts : none ∉ s.unacked
  puts' : none ∉ t.unacked
  sent : ∀ u ∈ s.sent, ∃ x, u = some x ∧ Absorbs stamp b x
  sent' : ∀ u ∈ t.sent, ∃ x, u = some x ∧ Absorbs stamp a x
  agree : replay stamp b s.pending = replay stamp a t.pending

structure Dropping (a b : Option α) (s t : Link (Option α)) : Prop where
  remove : none ∈ s.unacked
  empty : t.unacked = []
  source : ∀ c, replay stamp c s.unacked = a
  target : none ∉ s.pending → ∀ c, replay stamp c s.sent = b

structure Dropped (a b : Option α) (s t : Link (Option α)) : Prop where
  last : s.unacked.getLast? = some none
  last' : t.unacked.getLast? = some none
  target : s.pending = [] → b = none
  target' : t.pending = [] → a = none

/-- The registers will agree once both links are drained; `s` leads from the first to the
second replica and `t` back. -/
def Converging (a b : Option α) (s t : Link (Option α)) : Prop :=
  Settled stamp a b s t ∨ Dropping stamp a b s t ∨ Dropping stamp b a t s ∨ Dropped a b s t

variable {stamp} {a b : Option α} {s t : Link (Option α)}

theorem Settled.symm (h : Settled stamp a b s t) : Settled stamp b a t s :=
  ⟨h.puts', h.puts, h.sent', h.sent, h.agree.symm⟩

theorem Dropped.symm (h : Dropped a b s t) : Dropped b a t s :=
  ⟨h.last', h.last, h.target', h.target⟩

theorem eq_nil_of_unacked (h : s.unacked = []) : s.sent = [] ∧ s.pending = [] :=
  append_eq_nil_iff.1 h

theorem mem_unacked_of_last (h : s.unacked.getLast? = some none) : none ∈ s.unacked :=
  mem_of_getLast? h

theorem replay_of_last {us : List (Option α)} (h : us.getLast? = some none) (c : Option α) :
    replay stamp c us = none := by
  obtain ⟨vs, rfl⟩ := getLast?_eq_some_iff.1 h
  rw [replay_concat]
  rfl

namespace Converging

theorem symm (h : Converging stamp a b s t) : Converging stamp b a t s := by
  rcases h with h | h | h | h
  · exact .inl h.symm
  · exact .inr (.inr (.inl h))
  · exact .inr (.inl h)
  · exact .inr (.inr (.inr h.symm))

theorem start : Converging stamp (none : Option α) none {} {} :=
  Or.inl ⟨not_mem_nil, not_mem_nil, fun _ hu => absurd hu not_mem_nil,
    fun _ hu => absurd hu not_mem_nil, rfl⟩

theorem agree (h : Converging stamp a b s t) (hs : s.pending = []) (ht : t.pending = []) :
    a = b := by
  have hdrop : ∀ {a b : Option α} {s t : Link (Option α)}, Dropping stamp a b s t →
      s.pending = [] → a = b := by
    intro a b s t h hs
    have hsent := h.target (by rw [hs]; exact not_mem_nil) none
    have hsource := h.source none
    rw [Link.unacked, hs, append_nil, hsent] at hsource
    exact hsource.symm
  rcases h with h | h | h | h
  · have heq := h.agree
    rw [hs, ht] at heq
    exact heq.symm
  · exact hdrop h hs
  · exact (hdrop h ht).symm
  · rw [h.target hs, h.target' ht]

theorem put (h : Converging stamp a b s t) {x : α} (ha : ∀ y, a = some y → stamp y < stamp x)
    (hne : ∀ y, some y ∈ t.pending → stamp y ≠ stamp x) (hok : none ∉ t.unacked) :
    Converging stamp (some x) b (s.push (some x)) t := by
  have habsorbs : ∀ y, Absorbs stamp a y → Absorbs stamp (some x) y := by
    rintro y ⟨z, hz, hle⟩
    exact ⟨x, rfl, Nat.le_trans hle (Nat.le_of_lt (ha z hz))⟩
  rcases h with h | h | h | h
  · refine .inl ⟨?_, h.puts', h.sent, fun u hu => ?_, ?_⟩
    · rw [Link.unacked_push, mem_append, not_or]
      exact ⟨h.puts, by simp⟩
    · obtain ⟨y, rfl, hy⟩ := h.sent' u hu
      exact ⟨y, rfl, habsorbs y hy⟩
    · have hpending : none ∉ t.pending := fun hmem => hok (mem_append_right _ hmem)
      rw [Link.push, replay_concat, h.agree]
      exact (replay_put hpending ha hne).symm
  · refine .inr (.inl ⟨?_, h.empty, fun c => ?_, fun hnone => h.target fun hmem => ?_⟩)
    · rw [Link.unacked_push]
      exact mem_append_left _ h.remove
    · rw [Link.unacked_push, replay_concat, h.source]
      exact congrArg some (merge_of_lt ha)
    · exact hnone (mem_append_left _ hmem)
  · exact absurd h.remove hok
  · exact absurd (mem_unacked_of_last h.last') hok

theorem remove (s : Link (Option α)) (b : Option α) (hok : ∀ x, t.unacked.getLast? ≠ some (some x)) :
    Converging stamp none b (s.push none) t := by
  have hremove : none ∈ (s.push none).unacked := by
    rw [Link.unacked_push]
    exact mem_append_right _ (mem_singleton_self _)
  have hlast : (s.push none).unacked.getLast? = some none := by
    rw [Link.unacked_push, getLast?_concat]
  have hpending : none ∈ (s.push none).pending :=
    mem_append_right _ (mem_singleton_self _)
  have hdropping : t.unacked = [] → Dropping stamp none b (s.push none) t := fun hempty =>
    ⟨hremove, hempty, replay_of_last hlast, fun hnone => absurd hpending hnone⟩
  have hdropped : t.unacked.getLast? = some none → Dropped none b (s.push none) t :=
    fun hlast' =>
      ⟨hlast, hlast', fun hnil => absurd (hnil ▸ hpending) not_mem_nil, fun _ => rfl⟩
  cases ht : t.unacked.getLast? with
  | none => exact .inr (.inl (hdropping (getLast?_eq_none_iff.1 ht)))
  | some u =>
    cases u with
    | some x => exact absurd ht (hok x)
    | none => exact .inr (.inr (.inr (hdropped ht)))

theorem deliver (h : Converging stamp a b s t) {u : Option α} (hu : s.pending.head? = some u) :
    Converging stamp a (update stamp b u) s.advance t := by
  obtain ⟨us, hus⟩ := head?_eq_some_iff.1 hu
  have hunacked := Link.unacked_advance (l := s)
  have hsent : s.advance.sent = s.sent ++ [u] := by rw [Link.advance, hus]; rfl
  have hpending : s.advance.pending = us := by rw [Link.advance, hus]; rfl
  rcases h with h | h | h | h
  · have hmem : u ∈ s.unacked := mem_append_right _ (hus ▸ mem_cons_self)
    cases u with
    | none => exact absurd hmem h.puts
    | some x =>
      refine .inl ⟨hunacked ▸ h.puts, h.puts', fun v hv => ?_, h.sent', ?_⟩
      · rw [hsent] at hv
        rcases mem_append.1 hv with hv | hv
        · obtain ⟨y, rfl, hy⟩ := h.sent v hv
          exact ⟨y, rfl, hy.update x⟩
        · exact ⟨x, mem_singleton.1 hv, absorbs_update_self b x⟩
      · rw [hpending, ← h.agree, hus]
        rfl
  · refine .inr (.inl ⟨hunacked ▸ h.remove, h.empty, hunacked ▸ h.source, fun hnone c => ?_⟩)
    rw [hpending] at hnone
    rw [hsent, replay_concat]
    cases u with
    | none => rfl
    | some x =>
      have hnone' : none ∉ s.pending := by
        rw [hus, mem_cons, not_or]
        exact ⟨by simp, hnone⟩
      rw [h.target hnone' c]
  · rw [(eq_nil_of_unacked h.empty).2] at hus
    cases hus
  · refine .inr (.inr (.inr ⟨hunacked ▸ h.last, h.last', fun hnil => ?_, h.target'⟩))
    rw [hpending] at hnil
    have hlast := h.last
    rw [Link.unacked, hus, hnil, getLast?_concat] at hlast
    rw [Option.some.inj hlast]
    rfl

theorem ack (h : Converging stamp a b s t) : Converging stamp a b s.ack t := by
  have hunacked : s.ack.unacked = s.pending := nil_append _
  rcases h with h | h | h | h
  · refine .inl ⟨fun hmem => h.puts ?_, h.puts', fun _ hu => absurd hu not_mem_nil, h.sent',
      h.agree⟩
    exact mem_append_right _ hmem
  · by_cases hnone : none ∈ s.pending
    · refine .inr (.inl ⟨hunacked ▸ hnone, h.empty, fun c => ?_, fun hnot => absurd hnone hnot⟩)
      rw [hunacked, ← h.source c, Link.unacked, replay_append]
      exact replay_of_remove hnone _ _
    · have hempty := eq_nil_of_unacked h.empty
      refine .inl ⟨hunacked ▸ hnone, h.empty ▸ not_mem_nil,
        fun _ hu => absurd hu not_mem_nil,
        fun u hu => absurd (hempty.1 ▸ hu) not_mem_nil, ?_⟩
      have hsource := h.source none
      rw [Link.unacked, replay_append, h.target hnone] at hsource
      rw [hempty.2]
      exact hsource
  · have hempty := (eq_nil_of_unacked h.empty).2
    exact .inr (.inr (.inl ⟨h.remove, hunacked.trans hempty, h.source, h.target⟩))
  · by_cases hnil : s.pending = []
    · refine .inr (.inr (.inl ⟨mem_unacked_of_last h.last', hunacked.trans hnil, fun c => ?_,
        fun hnone c => ?_⟩))
      · rw [h.target hnil, replay_of_last h.last']
      · have hnil' : t.pending = [] := by
          by_contra hne
          have hlast := h.last'
          rw [Link.unacked, getLast?_append_of_ne_nil _ hne] at hlast
          exact hnone (mem_of_getLast? hlast)
        have hlast := h.last'
        rw [Link.unacked, hnil', append_nil] at hlast
        rw [replay_of_last hlast, h.target' hnil']
    · refine .inr (.inr (.inr ⟨?_, h.last', fun heq => absurd heq hnil, h.target'⟩))
      have hlast := h.last
      rw [Link.unacked, getLast?_append_of_ne_nil _ hnil] at hlast
      exact hlast

theorem resend (h : Converging stamp a b s t) : Converging stamp a b s.resend t := by
  have hunacked : s.resend.unacked = s.unacked := nil_append _
  rcases h with h | h | h | h
  · refine .inl ⟨hunacked ▸ h.puts, h.puts', fun _ hu => absurd hu not_mem_nil, h.sent', ?_⟩
    rw [Link.resend, Link.unacked, replay_append, replay_of_absorbs h.sent]
    exact h.agree
  · exact .inr (.inl ⟨hunacked ▸ h.remove, h.empty, hunacked ▸ h.source,
      fun hnone => absurd h.remove hnone⟩)
  · exact .inr (.inr (.inl ⟨h.remove, hunacked.trans h.empty, h.source, h.target⟩))
  · refine .inr (.inr (.inr ⟨hunacked ▸ h.last, h.last', fun hnil => ?_, h.target'⟩))
    have hmem := mem_unacked_of_last h.last
    rw [show s.unacked = [] from hnil] at hmem
    cases hmem

end Converging

end Agreement

/-! ## Whole states -/

section States

variable {β : Type*}

/-- The second replica follows the first one, to which nothing is on its way. -/
structure Following (a b : β) (s t : Link β) : Prop where
  empty : t.unacked = []
  source : ∀ u, s.unacked.getLast? = some u → u = a
  target : s.pending = [] → a = b

def InStep (a b : β) (s t : Link β) : Prop := Following a b s t ∨ Following b a t s

variable {a b : β} {s t : Link β}

namespace InStep

theorem symm (h : InStep a b s t) : InStep b a t s := Or.symm h

theorem start (a : β) : InStep a a {} {} :=
  Or.inl ⟨rfl, fun _ hu => (by cases hu), fun _ => rfl⟩

theorem agree (h : InStep a b s t) (hs : s.pending = []) (ht : t.pending = []) : a = b :=
  h.elim (fun h => h.target hs) fun h => (h.target ht).symm

theorem write (s : Link β) (b : β) (u : β) (hok : t.unacked = []) : InStep u b (s.push u) t := by
  refine .inl ⟨hok, fun v hv => ?_, fun hnil => ?_⟩
  · rw [Link.unacked_push, getLast?_concat] at hv
    exact (Option.some.inj hv).symm
  · exact absurd hnil (append_ne_nil_of_right_ne_nil _ (cons_ne_nil _ _))

theorem deliver (h : InStep a b s t) {u : β} (hu : s.pending.head? = some u) :
    InStep a u s.advance t := by
  obtain ⟨us, hus⟩ := head?_eq_some_iff.1 hu
  rcases h with h | h
  · have hunacked := Link.unacked_advance (l := s)
    refine .inl ⟨h.empty, hunacked ▸ h.source, fun hnil => (h.source u ?_).symm⟩
    rw [Link.advance, hus] at hnil
    rw [Link.unacked, hus, show us = [] from hnil, getLast?_concat]
  · rw [(append_eq_nil_iff.1 h.empty).2] at hus
    cases hus

theorem ack (h : InStep a b s t) : InStep a b s.ack t := by
  have hunacked : s.ack.unacked = s.pending := nil_append _
  rcases h with h | h
  · refine .inl ⟨h.empty, fun u hu => h.source u ?_, h.target⟩
    rw [hunacked] at hu
    have hne : s.pending ≠ [] := fun hnil => by
      rw [hnil] at hu
      cases hu
    rw [Link.unacked, getLast?_append_of_ne_nil _ hne, hu]
  · exact .inr ⟨hunacked.trans (append_eq_nil_iff.1 h.empty).2, h.source, h.target⟩

theorem resend (h : InStep a b s t) : InStep a b s.resend t := by
  have hunacked : s.resend.unacked = s.unacked := nil_append _
  rcases h with h | h
  · refine .inl ⟨h.empty, hunacked ▸ h.source, fun hnil => h.target ?_⟩
    exact (append_eq_nil_iff.1 hnil).2
  · exact .inr ⟨hunacked.trans h.empty, h.source, h.target⟩

end InStep

end States

end Lww
