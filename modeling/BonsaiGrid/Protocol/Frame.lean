import BonsaiGrid.Lib.Fault
import BonsaiGrid.Lib.LittleEndian
import Mathlib.Algebra.Ring.Int.Defs

/-!
# The client protocol's frames

`[i32 length = 6 + content][u16 flags][content]`, one frame after the other until one has
`IS_FINAL` set: a message. `message_len` walks the frame prefixes, and `read_message` takes the
frames out.
-/

namespace BonsaiGrid.Protocol

open Fault LittleEndian Nat

/-! ## Fixed-size values -/

def toI32 (n : ℕ) : ℤ := if n < 2 ^ 31 then n else n - 2 ^ 32

def toI64 (n : ℕ) : ℤ := if n < 2 ^ 63 then n else n - 2 ^ 64

def asUsize (v : ℤ) : ℕ := (v % 2 ^ 64).toNat

def readI32Le (buf : Bytes) (pos : ℕ) : Except Fault ℤ := do
  let stop ← add pos 4
  let bytes ← slice buf pos stop
  return toI32 (decode bytes)

def readI64Le (buf : Bytes) (pos : ℕ) : Except Fault ℤ := do
  let stop ← add pos 8
  let bytes ← slice buf pos stop
  return toI64 (decode bytes)

def readU16Le (buf : Bytes) (pos : ℕ) : Except Fault UInt16 := do
  let stop ← add pos 2
  let bytes ← slice buf pos stop
  return UInt16.ofNat (decode bytes)

/-! ## Frames -/

def prefixLen : ℕ := 6

def unfragmented : UInt16 := 0xC000

def isFinal : UInt16 := 0x2000

structure Frame where
  flags : UInt16
  content : Bytes
deriving DecidableEq

variable (bytes : Bytes)

/-- What both readers look at first at an offset: the length and the flags of the frame that
starts there, or `none` if it is not all there. -/
def readHeader (off : ℕ) : Except Fault (Option (ℕ × UInt16)) := do
  let start ← add off prefixLen
  if bytes.length < start then
    return none
  else
    let len ← readI32Le bytes off
    let flags ← readU16Le bytes (off + 4)
    if asUsize len < prefixLen then
      return none
    else
      let stop ← add off (asUsize len)
      if bytes.length < stop then return none else return some (asUsize len, flags)

def messageLenFrom (bytes : Bytes) : ℕ → ℕ → Except Fault (Option ℕ)
  | 0, _ => .error .endless
  | fuel + 1, off => do
      match ← readHeader bytes off with
      | none => return none
      | some (len, flags) =>
        let off ← add off len
        if flags &&& isFinal ≠ 0 then return some off else messageLenFrom bytes fuel off

def messageLen : Except Fault (Option ℕ) :=
  messageLenFrom bytes (bytes.length + 1) 0

def readMessageFrom (bytes : Bytes) :
    ℕ → List Frame → ℕ → Except Fault (Option (List Frame × ℕ))
  | 0, _, _ => .error .endless
  | fuel + 1, frames, off => do
      match ← readHeader bytes off with
      | none => return none
      | some (len, flags) =>
        let stop ← add off len
        let content ← slice bytes (off + prefixLen) stop
        let frames := frames ++ [⟨flags, content⟩]
        if flags &&& isFinal ≠ 0 then return some (frames, stop)
        else readMessageFrom bytes fuel frames stop

def readMessage : Except Fault (Option (List Frame × ℕ)) :=
  readMessageFrom bytes (bytes.length + 1) [] 0

/-! ## What the readers look at -/

theorem decode_lt : decode bytes < 256 ^ bytes.length := by
  induction bytes with
  | nil => exact Nat.one_pos
  | cons b bytes ih =>
    have hb := b.toNat_lt
    rw [decode, List.length_cons]
    omega

def declared (off : ℕ) : ℤ :=
  toI32 (decode ((bytes.take (off + 4)).drop off))

def flagsAt (off : ℕ) : UInt16 :=
  UInt16.ofNat (decode ((bytes.take (off + 4 + 2)).drop (off + 4)))

section Header

variable {bytes : Bytes} {off : ℕ}

theorem declared_bounds (bytes : Bytes) (off : ℕ) :
    -2 ^ 31 ≤ declared bytes off ∧ declared bytes off < 2 ^ 31 := by
  have hlt := decode_lt ((bytes.take (off + 4)).drop off)
  have hlen : ((bytes.take (off + 4)).drop off).length ≤ 4 := by
    rw [List.length_drop, List.length_take]
    omega
  have hpow : 256 ^ ((bytes.take (off + 4)).drop off).length ≤ 256 ^ 4 :=
    Nat.pow_le_pow_right (by decide) hlen
  rw [declared, toI32]
  all_goals omega

theorem readI32Le_eq (hmem : bytes.length < 2 ^ 63) (h : off + 4 ≤ bytes.length) :
    readI32Le bytes off = .ok (declared bytes off) := by
  rw [readI32Le, add_eq (by omega), ok_bind, slice_eq (by omega) h]
  rfl

theorem readU16Le_eq (hmem : bytes.length < 2 ^ 63) (h : off + 4 + 2 ≤ bytes.length) :
    readU16Le bytes (off + 4) = .ok (flagsAt bytes off) := by
  rw [readU16Le, add_eq (by omega), ok_bind, slice_eq (by omega) h]
  rfl

/-- The declared length is that of the frame's prefix at least, and all of the frame is there. -/
def Whole (bytes : Bytes) (off : ℕ) : Prop :=
  6 ≤ declared bytes off ∧ off + declared bytes off ≤ bytes.length

/-- The declared length is negative and does not reach back beyond the start of the bytes. -/
def Backward (bytes : Bytes) (off : ℕ) : Prop :=
  off + prefixLen ≤ bytes.length ∧ declared bytes off < 0 ∧ 0 ≤ off + declared bytes off

instance (bytes : Bytes) (off : ℕ) : Decidable (Whole bytes off) :=
  inferInstanceAs (Decidable (_ ∧ _))

instance (bytes : Bytes) (off : ℕ) : Decidable (Backward bytes off) :=
  inferInstanceAs (Decidable (_ ∧ _ ∧ _))

theorem asUsize_of_nonneg {v : ℤ} (h : 0 ≤ v) (hlt : v < 2 ^ 31) : asUsize v = v.toNat := by
  rw [asUsize, Int.emod_eq_of_lt h (by omega)]

theorem asUsize_of_neg {v : ℤ} (h : v < 0) (hge : -2 ^ 31 ≤ v) : (asUsize v : ℤ) = v + 2 ^ 64 := by
  rw [asUsize, ← Int.add_emod_right]
  omega

theorem readHeader_short (hmem : bytes.length < 2 ^ 63) (hoff : off ≤ bytes.length)
    (h : bytes.length < off + prefixLen) : readHeader bytes off = .ok none := by
  rw [prefixLen] at h
  rw [readHeader, prefixLen, add_eq (by omega), ok_bind, if_pos h]
  rfl

theorem readHeader_eq (hmem : bytes.length < 2 ^ 63) (h : off + prefixLen ≤ bytes.length) :
    readHeader bytes off =
      if asUsize (declared bytes off) < prefixLen then .ok none
      else add off (asUsize (declared bytes off)) >>= fun stop =>
        if bytes.length < stop then .ok none
        else .ok (some (asUsize (declared bytes off), flagsAt bytes off)) := by
  rw [prefixLen] at h
  rw [readHeader, prefixLen, add_eq (by omega), ok_bind, if_neg (not_lt.mpr h),
    readI32Le_eq hmem (by omega), readU16Le_eq hmem (by omega)]
  rfl

theorem readHeader_whole (hmem : bytes.length < 2 ^ 63) (h : Whole bytes off) :
    readHeader bytes off = .ok (some ((declared bytes off).toNat, flagsAt bytes off)) := by
  obtain ⟨hlow, hhigh⟩ := h
  have hlen := asUsize_of_nonneg (by omega) (declared_bounds bytes off).2
  rw [readHeader_eq hmem (by rw [prefixLen]; omega), hlen, if_neg (by rw [prefixLen]; omega),
    add_eq (by omega), ok_bind, if_neg (by omega)]

theorem readHeader_incomplete (hmem : bytes.length < 2 ^ 63) (hoff : off ≤ bytes.length)
    (hw : ¬ Whole bytes off) (hb : ¬ Backward bytes off) : readHeader bytes off = .ok none := by
  rcases lt_or_ge bytes.length (off + prefixLen) with hshort | hlong
  · exact readHeader_short hmem hoff hshort
  · obtain ⟨hlow, hhigh⟩ := declared_bounds bytes off
    rw [readHeader_eq hmem hlong]
    rcases Int.lt_or_le (declared bytes off) 0 with hneg | hnonneg
    · -- a length that reaches back beyond the start becomes one beyond the end
      have hcast := asUsize_of_neg hneg hlow
      have hback : off + declared bytes off < 0 := by
        by_contra hge
        exact hb ⟨hlong, hneg, by omega⟩
      rw [if_neg (by rw [prefixLen]; omega), add_eq (by omega), ok_bind, if_pos (by omega)]
    · rw [asUsize_of_nonneg hnonneg hhigh]
      split
      next => rfl
      next hsix =>
        rw [prefixLen] at hsix
        have hbeyond : ¬ off + declared bytes off ≤ bytes.length :=
          fun hle => hw ⟨by omega, hle⟩
        rw [add_eq (by omega), ok_bind, if_pos (by omega)]

theorem readHeader_backward (hmem : bytes.length < 2 ^ 63) (h : Backward bytes off) :
    readHeader bytes off = .error .overflow := by
  obtain ⟨hlong, hneg, hback⟩ := h
  have hcast := asUsize_of_neg hneg (declared_bounds bytes off).1
  have hbounds := declared_bounds bytes off
  rw [readHeader_eq hmem hlong, if_neg (by rw [prefixLen]; omega), add, if_neg (by omega),
    error_bind]

end Header

/-! ## The readers agree -/

section Agree

variable {bytes : Bytes}

theorem of_readHeader {off len : ℕ} {flags : UInt16}
    (h : readHeader bytes off = .ok (some (len, flags))) :
    prefixLen ≤ len ∧ off + len ≤ bytes.length ∧ add off len = .ok (off + len) := by
  rw [readHeader, bind_eq_ok] at h
  obtain ⟨start, -, h⟩ := h
  split at h
  next => cases h
  next =>
    obtain ⟨v, -, h⟩ := bind_eq_ok.mp h
    obtain ⟨w, -, h⟩ := bind_eq_ok.mp h
    split at h
    next => cases h
    next hlow =>
      obtain ⟨stop, hstop, h⟩ := bind_eq_ok.mp h
      split at h
      next => cases h
      next hhigh =>
        cases h
        obtain ⟨rfl, -⟩ := of_add hstop
        exact ⟨not_lt.mp hlow, not_lt.mp hhigh, hstop⟩

theorem messageLenFrom_eq (fuel : ℕ) (frames : List Frame)
    (off : ℕ) : messageLenFrom bytes fuel off =
      (readMessageFrom bytes fuel frames off).map (Option.map Prod.snd) := by
  induction fuel generalizing frames off with
  | zero => rfl
  | succ fuel ih =>
    rw [messageLenFrom, readMessageFrom]
    cases hhead : readHeader bytes off with
    | error e => rfl
    | ok head =>
      cases head with
      | none => rfl
      | some head =>
        obtain ⟨hlow, hhigh, hadd⟩ := of_readHeader hhead
        rw [ok_bind, ok_bind]
        dsimp only
        rw [hadd, ok_bind, ok_bind, slice_eq (by omega) hhigh]
        split
        next => rfl
        next => exact ih _ _

theorem messageLen_eq (bytes : Bytes) :
    messageLen bytes = (readMessage bytes).map (Option.map Prod.snd) :=
  messageLenFrom_eq _ _ _

end Agree

/-! ## Framing is total where no later frame points back -/

/-- A frame of the message starts here: the first one does at the start, and behind a whole
frame that is not the final one there is another. -/
inductive FrameAt (bytes : Bytes) : ℕ → Prop
  | first : FrameAt bytes 0
  | next {off : ℕ} : FrameAt bytes off → Whole bytes off → flagsAt bytes off &&& isFinal = 0 →
      FrameAt bytes (off + (declared bytes off).toNat)

/-- No frame declares a negative length that points to bytes before it. -/
def Forward : Prop := ∀ off, FrameAt bytes off → ¬ Backward bytes off

section Total

variable {bytes : Bytes}

theorem readMessageFrom_returns (hmem : bytes.length < 2 ^ 63) (hf : Forward bytes) {fuel off : ℕ}
    (hat : FrameAt bytes off) (hoff : off ≤ bytes.length) (hfuel : bytes.length - off < fuel)
    (frames : List Frame) :
    ∃ r, readMessageFrom bytes fuel frames off = .ok r ∧
      ∀ p ∈ r, off < p.2 ∧ p.2 ≤ bytes.length := by
  induction fuel generalizing off frames with
  | zero => omega
  | succ fuel ih =>
    rw [readMessageFrom]
    by_cases hw : Whole bytes off
    · have hwhole := hw
      obtain ⟨hlow, hhigh⟩ := hwhole
      rw [readHeader_whole hmem hw, ok_bind]
      dsimp only
      rw [add_eq (by omega), ok_bind, slice_eq (by rw [prefixLen]; omega) (by omega)]
      split
      next =>
        refine ⟨_, rfl, fun p hp => ?_⟩
        cases hp
        exact ⟨by dsimp only; omega, by dsimp only; omega⟩
      next hfin =>
        obtain ⟨r, hr, hbound⟩ := ih (hat.next hw (not_not.mp hfin)) (by omega) (by omega) _
        refine ⟨r, hr, fun p hp => ?_⟩
        have hp' := hbound p hp
        omega
    · rw [readHeader_incomplete hmem hoff hw (hf off hat)]
      exact ⟨none, rfl, fun p hp => by cases hp⟩

theorem readMessageFrom_whole (hmem : bytes.length < 2 ^ 63) {off : ℕ} (hw : Whole bytes off)
    (hfin : flagsAt bytes off &&& isFinal = 0) (fuel : ℕ) (frames : List Frame) :
    ∃ frames', readMessageFrom bytes (fuel + 1) frames off =
      readMessageFrom bytes fuel frames' (off + (declared bytes off).toNat) := by
  have hwhole := hw
  obtain ⟨hlow, hhigh⟩ := hwhole
  apply Exists.intro
  rw [readMessageFrom, readHeader_whole hmem hw, ok_bind]
  dsimp only
  rw [add_eq (by omega), ok_bind, slice_eq (by rw [prefixLen]; omega) (by omega), ok_bind,
    if_neg (not_not.mpr hfin)]

/-- Where a frame starts, the walk of `read_message` comes by with rounds left for the bytes
behind it. -/
theorem exists_readMessageFrom (hmem : bytes.length < 2 ^ 63) {off : ℕ} (hat : FrameAt bytes off) :
    ∃ fuel frames, bytes.length < off + fuel ∧
      readMessage bytes = readMessageFrom bytes fuel frames off := by
  induction hat with
  | first => exact ⟨bytes.length + 1, [], by omega, rfl⟩
  | @next off hat hw hfin ih =>
    obtain ⟨fuel, frames, hfuel, hread⟩ := ih
    have hwhole := hw
    obtain ⟨hlow, hhigh⟩ := hwhole
    obtain - | fuel := fuel
    · omega
    obtain ⟨frames', hnext⟩ := readMessageFrom_whole hmem hw hfin fuel frames
    exact ⟨fuel, frames', by omega, hread.trans hnext⟩

/-- A frame that points back stops the walk: its length is added to its offset as an unsigned
number. -/
theorem readMessage_backward (hmem : bytes.length < 2 ^ 63) {off : ℕ} (hat : FrameAt bytes off)
    (hb : Backward bytes off) : readMessage bytes = .error .overflow := by
  obtain ⟨fuel, frames, hfuel, hread⟩ := exists_readMessageFrom hmem hat
  obtain - | fuel := fuel
  · have hlong := hb.1
    omega
  rw [hread, readMessageFrom, readHeader_backward hmem hb, error_bind]

/-- **Framing is total.** On a byte string in memory both readers return, agree, and find only
messages that are not empty and end in the bytes, exactly if no frame behind the first declares a
negative length that points back into the message. -/
theorem framing_total (hmem : bytes.length < 2 ^ 63) :
    (∃ r, readMessage bytes = .ok r ∧ messageLen bytes = .ok (r.map Prod.snd) ∧
      ∀ frames n, r = some (frames, n) → 0 < n ∧ n ≤ bytes.length) ↔ Forward bytes := by
  constructor
  · rintro ⟨r, hr, -, -⟩ off hat hb
    rw [readMessage_backward hmem hat hb] at hr
    cases hr
  · intro hf
    obtain ⟨r, hr, hbound⟩ := readMessageFrom_returns hmem hf FrameAt.first (zero_le _)
      (lt_succ_self _) []
    have hread : readMessage bytes = .ok r := hr
    refine ⟨r, hread, ?_, fun frames n h => hbound (frames, n) h⟩
    rw [messageLen_eq, hread]
    rfl

end Total

def twoFrames : Bytes := [6, 0, 0, 0, 0, 0, 6, 0, 0, 0, 0, 0x20]

theorem forward_twoFrames : Forward twoFrames := by
  intro off hat
  have hoff : off = 0 ∨ off = 6 := by
    induction hat with
    | first => exact .inl rfl
    | next hat hw hfin ih =>
      rcases ih with rfl | rfl
      · exact .inr rfl
      · exact absurd hfin (by decide)
  rcases hoff with rfl | rfl
  all_goals decide

theorem framing_total_twoFrames :
    Forward twoFrames ∧ ∃ r, readMessage twoFrames = .ok r ∧
      messageLen twoFrames = .ok (r.map Prod.snd) ∧
      ∀ frames n, r = some (frames, n) → 0 < n ∧ n ≤ twoFrames.length :=
  ⟨forward_twoFrames, (framing_total (by decide)).2 forward_twoFrames⟩

/-- A frame without content, and behind it the prefix of a frame of length `-1`: the sum of
its offset and its length, cast to `usize`, leaves the range, in both readers. -/
theorem framing_overflows :
    messageLen [6, 0, 0, 0, 0, 0, 255, 255, 255, 255, 0, 0] = .error .overflow ∧
      readMessage [6, 0, 0, 0, 0, 0, 255, 255, 255, 255, 0, 0] = .error .overflow := by
  decide +kernel

end BonsaiGrid.Protocol
