import BonsaiGrid.Store.Shard

/-!
# A shard refines a timed finite map

The reference is a map from names and keys to a value, a deadline that may be missing, and a
stamp; an entry is visible if it has no deadline or the clock is before it.
-/

namespace BonsaiGrid.Store

open Function List Inner Option

inductive ShardCall where
  | put (map : Str) (key val : Bytes) (ttlMs stamp : ℕ)
  | get (map : Str) (key : Bytes)
  | containsKey (map : Str) (key : Bytes)
  | remove (map : Str) (key : Bytes)
  | putIfAbsent (map : Str) (key val : Bytes) (ttlMs stamp : ℕ)
  | replace (map : Str) (key val : Bytes)
  | putMerge (map : Str) (key val : Bytes) (ttlMs stamp : ℕ) (latestUpdate : Bool)
  | clear (map : Str)

inductive ShardReply where
  | value (val : Option Bytes)
  | flag (b : Bool)
  | done
deriving DecidableEq

variable (now : ℕ)

/-- The lengths and the deadline that the call writes fit their words. -/
def ShardCall.Fits : ShardCall → Prop
  | .put _ key val ttlMs _ => key.length + val.length < 2 ^ 32 ∧ (0 < ttlMs → now + ttlMs < 2 ^ 64)
  | .putIfAbsent _ key val ttlMs _ =>
    key.length + val.length < 2 ^ 32 ∧ (0 < ttlMs → now + ttlMs < 2 ^ 64)
  | .putMerge _ key val ttlMs _ _ =>
    key.length + val.length < 2 ^ 32 ∧ (0 < ttlMs → now + ttlMs < 2 ^ 64)
  | .replace _ key val => key.length + val.length < 2 ^ 32
  | _ => True

instance  : (c : ShardCall) → Decidable (c.Fits now)
  | .put .. | .putIfAbsent .. | .putMerge .. => inferInstanceAs (Decidable (_ ∧ _))
  | .replace .. => inferInstanceAs (Decidable (_ < _))
  | .get .. | .containsKey .. | .remove .. | .clear _ => isTrue trivial

def Inner.call (s : Inner) (env : Env) : ShardCall → Inner × ShardReply
  | .put map key val ttlMs stamp =>
    let (s, old) := s.put env map key val ttlMs stamp
    (s, .value old)
  | .get map key =>
    let (s, val) := s.get env map key
    (s, .value val)
  | .containsKey map key =>
    let (s, b) := s.containsKey env map key
    (s, .flag b)
  | .remove map key =>
    let (s, old) := s.remove env map key
    (s, .value old)
  | .putIfAbsent map key val ttlMs stamp =>
    let (s, old) := s.putIfAbsent env map key val ttlMs stamp
    (s, .value old)
  | .replace map key val =>
    let (s, old) := s.replace env map key val
    (s, .value old)
  | .putMerge map key val ttlMs stamp latestUpdate =>
    (s.putMerge env map key val ttlMs stamp latestUpdate, .done)
  | .clear map => (s.clear map, .done)

structure TimedCell where
  val : Bytes
  deadline : Option ℕ
  stamp : ℕ
deriving DecidableEq

def TimedCell.visible (c : TimedCell) (now : ℕ) : Bool :=
  match c.deadline with
  | none => true
  | some d => now < d

theorem TimedCell.visible_mono (c : TimedCell) {now now' : ℕ} (hle : now ≤ now')
    (h : c.visible now' = true) : c.visible now = true := by
  rw [TimedCell.visible] at h ⊢
  cases hd : c.deadline with
  | none => rfl
  | some d =>
    rw [hd] at h
    simp only [decide_eq_true_eq] at h ⊢
    omega

abbrev TimedMap := Str × Bytes → Option TimedCell

namespace TimedMap

def look (m : TimedMap) (now : ℕ) (mk : Str × Bytes) : Option TimedCell :=
  (m mk).filter fun c => c.visible now

def entry (val : Bytes) (ttlMs stamp : ℕ) : TimedCell :=
  ⟨val, if 0 < ttlMs then some (now + ttlMs) else none, stamp⟩

def call (m : TimedMap) (now : ℕ) : ShardCall → TimedMap × ShardReply
  | .put map key val ttlMs stamp =>
    (update m (map, key) (some (entry now val ttlMs stamp)),
      .value ((m.look now (map, key)).map TimedCell.val))
  | .get map key => (m, .value ((m.look now (map, key)).map TimedCell.val))
  | .containsKey map key => (m, .flag (m.look now (map, key)).isSome)
  | .remove map key =>
    (update m (map, key) none, .value ((m.look now (map, key)).map TimedCell.val))
  | .putIfAbsent map key val ttlMs stamp =>
    match m.look now (map, key) with
    | some c => (m, .value (some c.val))
    | none => (update m (map, key) (some (entry now val ttlMs stamp)), .value none)
  | .replace map key val =>
    match m.look now (map, key) with
    | some c => (update m (map, key) (some { c with val := val }), .value (some c.val))
    | none => (m, .value none)
  | .putMerge map key val ttlMs stamp latestUpdate =>
    match m.look now (map, key) with
    | some c =>
      if latestUpdate = true ∧ c.stamp < stamp then
        (update m (map, key) (some (entry now val ttlMs stamp)), .done)
      else (m, .done)
    | none => (update m (map, key) (some (entry now val ttlMs stamp)), .done)
  | .clear map => (fun mk => if mk.1 = map then none else m mk, .done)

def run (m : TimedMap) (calls : List (Env × ShardCall)) : TimedMap :=
  calls.foldl (fun m c => (m.call c.1.now c.2).1) m

def replies (m : TimedMap) : List (Env × ShardCall) → List ShardReply
  | [] => []
  | c :: calls => (m.call c.1.now c.2).2 :: replies (m.call c.1.now c.2).1 calls

end TimedMap

namespace Inner

def run (s : Inner) (calls : List (Env × ShardCall)) : Inner :=
  calls.foldl (fun s c => (s.call c.1 c.2).1) s

def replies (s : Inner) : List (Env × ShardCall) → List ShardReply
  | [] => []
  | c :: calls => (s.call c.1 c.2).2 :: replies (s.call c.1 c.2).1 calls

end Inner

def Cell.timed (c : Cell) : TimedCell :=
  ⟨c.val, if c.expireAt = 0 then none else some c.expireAt, c.stamp⟩

theorem Cell.visible_timed (c : Cell) (now : ℕ) : c.timed.visible now = c.live now := by
  rw [Cell.timed, Cell.live]
  by_cases h : c.expireAt = 0
  · rw [h]
    rfl
  · rw [if_neg h, beq_eq_false_iff_ne.2 h]
    rfl

theorem timed_deadline {now ttlMs : ℕ} (val : Bytes) (stamp : ℕ)
    (hfit : 0 < ttlMs → now + ttlMs < 2 ^ 64) :
    Cell.timed ⟨val, Inner.deadline now ttlMs, stamp⟩ = TimedMap.entry now val ttlMs stamp := by
  rw [Cell.timed, TimedMap.entry, deadline]
  by_cases h : 0 < ttlMs
  · rw [if_pos h, if_pos h, Nat.mod_eq_of_lt (hfit h),
      if_neg (show ¬ now + ttlMs = 0 by omega)]
  · rw [if_neg h, if_neg h, if_pos rfl]

/-- What can be seen in the shard is what is visible in the reference. -/
def Agrees (cells : Contents) (m : TimedMap) : Prop :=
  ∀ mk, (Inner.seen now (cells mk)).map Cell.timed = m.look now mk

namespace Agrees

variable {now now' : ℕ} {cells cells' : Contents} {m : TimedMap} {mk : Str × Bytes}

theorem seen_seen (hle : now ≤ now') (o : Option Cell) :
    Inner.seen now' (Inner.seen now o) = Inner.seen now' o := by
  cases o with
  | none => rfl
  | some c =>
    simp only [seen, filter_some]
    cases hlive : c.live now with
    | true => rfl
    | false =>
      have hdead : c.live now' = false := by
        simp only [Cell.live, Bool.or_eq_false_iff, beq_eq_false_iff_ne,
          decide_eq_false_iff_not] at hlive ⊢
        exact ⟨hlive.1, by omega⟩
      rw [hdead]
      rfl

theorem look_map (o : Option Cell) :
    (o.map Cell.timed).filter (fun c => c.visible now) = (Inner.seen now o).map Cell.timed := by
  cases o with
  | none => rfl
  | some c =>
    simp only [map_some, seen, filter_some, Cell.visible_timed]
    cases c.live now with
    | true | false => rfl

theorem mono (h : Agrees now cells m) (hle : now ≤ now') : Agrees now' cells m := by
  intro mk
  have hlook : m.look now' mk = (m.look now mk).filter fun c => c.visible now' := by
    rw [TimedMap.look, TimedMap.look]
    cases m mk with
    | none => rfl
    | some c =>
      rw [filter_some, filter_some]
      cases hvis : c.visible now with
      | true => rw [if_pos rfl, filter_some]
      | false =>
        have hlater : ¬ c.visible now' = true := fun hvis' => by
          rw [c.visible_mono hle hvis'] at hvis
          cases hvis
        rw [if_neg hlater]
        rfl
  rw [hlook, ← h mk, look_map, seen_seen hle]

theorem update (h : Agrees now cells m) (c : Option Cell) :
    Agrees now (update cells mk c) (update m mk (c.map Cell.timed)) := by
  intro mk'
  by_cases hmk : mk' = mk
  · subst hmk
    rw [update_self, TimedMap.look, update_self, look_map]
  · rw [update_of_ne hmk, TimedMap.look, update_of_ne hmk]
    exact h mk'

theorem reap (h : Agrees now cells m) (mk : Str × Bytes) :
    Agrees now (Function.update cells mk (Inner.seen now (cells mk))) m := by
  intro mk'
  by_cases hmk : mk' = mk
  · subst hmk
    rw [update_self, seen_seen (Nat.le_refl now)]
    exact h mk'
  · rw [update_of_ne hmk]
    exact h mk'

theorem val (h : Agrees now cells m) :
    (Inner.seen now (cells mk)).map Cell.val = (m.look now mk).map TimedCell.val := by
  rw [← h mk, Option.map_map]
  rfl

end Agrees

theorem Inner.call_spec {s : Inner} {env : Env} {m : TimedMap} (h : s.Inv ∧ s.Plain)
    (hm : Agrees env.now s.contents m) {c : ShardCall} (hfit : c.Fits env.now) :
    ((s.call env c).1.Inv ∧ (s.call env c).1.Plain) ∧
      Agrees env.now (s.call env c).1.contents (m.call env.now c).1 ∧
      (s.call env c).2 = (m.call env.now c).2 := by
  cases c with
  | put map key val ttlMs stamp =>
    obtain ⟨⟨hok, hcont⟩, hret⟩ := put_sets h env map key val ttlMs stamp hfit.1
    refine ⟨hok, ?_, congrArg ShardReply.value (hret.trans hm.val)⟩
    rw [call, hcont, TimedMap.call, ← timed_deadline val stamp hfit.2]
    exact hm.update (some _)
  | get map key =>
    obtain ⟨⟨hok, hcont⟩, hret⟩ := get_sets h env map key
    refine ⟨hok, ?_, congrArg ShardReply.value (hret.trans hm.val)⟩
    rw [call, hcont]
    exact hm.reap _
  | containsKey map key =>
    obtain ⟨⟨hok, hcont⟩, hret⟩ := containsKey_sets h env map key
    refine ⟨hok, ?_, congrArg ShardReply.flag (hret.trans ?_)⟩
    · rw [call, hcont]
      exact hm.reap _
    · rw [← hm (map, key), isSome_map]
  | remove map key =>
    obtain ⟨⟨hok, hcont⟩, hret⟩ := remove_sets h env map key
    refine ⟨hok, ?_, congrArg ShardReply.value (hret.trans hm.val)⟩
    rw [call, hcont]
    exact hm.update none
  | putIfAbsent map key val ttlMs stamp =>
    obtain ⟨⟨hok, hcont⟩, hret⟩ := putIfAbsent_sets h env map key val ttlMs stamp hfit.1
    refine ⟨hok, ?_, ?_⟩
    · rw [call, hcont, TimedMap.call, ← hm (map, key)]
      cases hseen : seen env.now (s.contents (map, key)) with
      | none =>
        rw [← timed_deadline val stamp hfit.2]
        exact hm.update (some _)
      | some c =>
        have hreap := hm.reap (map, key)
        rw [hseen] at hreap
        exact hreap
    · refine (congrArg ShardReply.value hret).trans ?_
      rw [TimedMap.call, ← hm (map, key)]
      cases seen env.now (s.contents (map, key)) with
      | none | some c => rfl
  | replace map key val =>
    obtain ⟨⟨hok, hcont⟩, hret⟩ := replace_sets h env map key val hfit
    refine ⟨hok, ?_, ?_⟩
    · rw [call, hcont, TimedMap.call, ← hm (map, key)]
      cases hseen : seen env.now (s.contents (map, key)) with
      | none =>
        have hreap := hm.reap (map, key)
        rw [hseen] at hreap
        exact hreap
      | some c => exact hm.update (some { c with val := val })
    · refine (congrArg ShardReply.value hret).trans ?_
      rw [TimedMap.call, ← hm (map, key)]
      cases seen env.now (s.contents (map, key)) with
      | none | some c => rfl
  | putMerge map key val ttlMs stamp latestUpdate =>
    obtain ⟨hok, hcont⟩ := putMerge_sets h env map key val ttlMs stamp latestUpdate hfit.1
    rw [call, TimedMap.call, ← hm (map, key)]
    refine ⟨hok, ?_⟩
    rw [hcont, ← timed_deadline val stamp hfit.2]
    cases hseen : seen env.now (s.contents (map, key)) with
    | none => exact ⟨hm.update (some _), rfl⟩
    | some c =>
      rw [mergeCell, map_some]
      dsimp only
      rw [show c.timed.stamp = c.stamp from rfl]
      split
      next => exact ⟨hm.update (some _), rfl⟩
      next => exact ⟨hseen ▸ hm.reap (map, key), rfl⟩
  | clear map =>
    obtain ⟨hok, hcont⟩ := clear_spec h map
    refine ⟨hok, fun mk => ?_, rfl⟩
    rw [call, hcont, TimedMap.call, TimedMap.look]
    dsimp only
    by_cases hmk : mk.1 = map
    · rw [if_pos hmk, if_pos hmk]
      rfl
    · rw [if_neg hmk, if_neg hmk]
      exact hm mk

theorem Inner.run_spec {s : Inner} {m : TimedMap} {now : ℕ} (h : s.Inv ∧ s.Plain)
    (hm : Agrees now s.contents m) {calls : List (Env × ShardCall)}
    (hclock : (calls.map fun c => c.1.now).Pairwise (· ≤ ·))
    (hstart : ∀ c ∈ calls, now ≤ c.1.now) (hfit : ∀ c ∈ calls, c.2.Fits c.1.now) :
    s.replies calls = m.replies calls ∧ ((s.run calls).Inv ∧ (s.run calls).Plain) ∧
      ∀ later, now ≤ later → (∀ c ∈ calls, c.1.now ≤ later) →
        Agrees later (s.run calls).contents (m.run calls) := by
  induction calls generalizing s m now with
  | nil => exact ⟨rfl, h, fun later hlater _ => hm.mono hlater⟩
  | cons c calls ih =>
    rw [map_cons, pairwise_cons] at hclock
    have hnow := hstart c mem_cons_self
    obtain ⟨hok, hagree, hreply⟩ := call_spec h (hm.mono hnow)
      (hfit c mem_cons_self)
    obtain ⟨hreplies, hok', hagree'⟩ := ih hok hagree hclock.2
      (fun d hd => hclock.1 _ (mem_map_of_mem hd))
      fun d hd => hfit d (mem_cons_of_mem c hd)
    refine ⟨?_, hok', fun later _ hle => ?_⟩
    · rw [replies, TimedMap.replies, hreply, hreplies]
    · exact hagree' later (hle c mem_cons_self) fun d hd => hle d (mem_cons_of_mem c hd)

/-- A new shard answers every sequence of calls as the reference does, if the clock
does not go back and what is written fits; and afterwards it lists every entry that is
visible in the reference, and no key twice. -/
theorem shard_refines_timedMap (calls : List (Env × ShardCall))
    (hclock : (calls.map fun c => c.1.now).Pairwise (· ≤ ·))
    (hfit : ∀ c ∈ calls, c.2.Fits c.1.now) :
    Inner.new.replies calls = TimedMap.replies (fun _ => none) calls ∧
      ∀ now, (∀ c ∈ calls, c.1.now ≤ now) → ∀ map,
        (((Inner.new.run calls).collectEntries now map).map Prod.fst).Nodup ∧
        ∀ key val, (key, val) ∈ (Inner.new.run calls).collectEntries now map ↔
          ∃ c, (TimedMap.run (fun _ => none) calls).look now (map, key) = some c ∧
            c.val = val := by
  obtain ⟨hinv, hplain, hempty⟩ := inv_new
  have hagree : Agrees 0 new.contents fun _ => none := by
    exact fun mk => rfl
  obtain ⟨hreplies, ⟨hinv', hplain'⟩, hrun⟩ := run_spec ⟨hinv, hplain⟩ hagree hclock
    (fun c _ => Nat.zero_le _) hfit
  refine ⟨hreplies, fun now hnow map => ⟨hinv'.nodup_collectEntries now map, fun key val => ?_⟩⟩
  rw [hinv'.mem_collectEntries hplain', ← hrun now (Nat.zero_le now) hnow (map, key)]
  constructor
  · rintro ⟨c, hc, hval⟩
    exact ⟨c.timed, by rw [hc]; rfl, hval⟩
  · rintro ⟨c, hc, hval⟩
    obtain ⟨d, hd, rfl⟩ := map_eq_some_iff.1 hc
    exact ⟨d, hd, hval⟩

section Runs

def mapM : Str := ⟨[109], by decide⟩

def expiring : List (Env × ShardCall) :=
  [(⟨5, 0⟩, .put mapM [1] [10] 20 7), (⟨24, 0⟩, .get mapM [1]), (⟨25, 0⟩, .get mapM [1]),
    (⟨25, 0⟩, .putIfAbsent mapM [1] [11] 0 8), (⟨30, 0⟩, .clear ⟨[110], by decide⟩),
    (⟨31, 0⟩, .remove mapM [1])]

theorem shard_refines_expiring :
    Inner.new.replies expiring =
      [.value none, .value (some [10]), .value none, .value none, .done, .value (some [11])] :=
  (shard_refines_timedMap expiring (by decide) (by decide)).1

def longest : List (Env × ShardCall) :=
  [(⟨2, 0⟩, .put mapM [1] [10] (2 ^ 64 - 1) 7), (⟨2, 0⟩, .get mapM [1])]

/-- The deadline wraps, and the value is gone at once. -/
theorem shard_loses_longest :
    Inner.new.replies longest = [.value none, .value none] ∧
      TimedMap.replies (fun _ => none) longest = [.value none, .value (some [10])] := by
  refine ⟨?_, by decide⟩
  obtain ⟨hinv, hplain, hempty⟩ := inv_new
  obtain ⟨hput, hret⟩ := put_sets ⟨hinv, hplain⟩ ⟨2, 0⟩ mapM [1] [10] (2 ^ 64 - 1) 7 (by decide)
  obtain ⟨-, hget⟩ := get_sets hput.ok ⟨2, 0⟩ mapM [1]
  have hcell : (new.put ⟨2, 0⟩ mapM [1] [10] (2 ^ 64 - 1) 7).1.contents (mapM, [1]) =
      some ⟨[10], 1, 7⟩ := by
    rw [hput.contents]
    rfl
  rw [hcell] at hget
  rw [longest, replies, replies, call, call]
  dsimp only
  rw [hret, hget]
  rfl

end Runs

end BonsaiGrid.Store
