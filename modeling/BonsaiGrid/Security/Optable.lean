import BonsaiGrid.Security.Principal
import Mathlib.Algebra.Ring.Int.Defs

/-!
# The authorization table

The dispatcher knows a request by the number of its message type, whose upper half is the number
of a service.
-/

namespace BonsaiGrid.Security

inductive Decision
  | data (rt : ResourceType) (action : Action)
  | infra
  | adminOnly
  | unknown
deriving DecidableEq

def coarseAction : Action := .put

def mapAction (msgType : ℤ) : Action :=
  if msgType ∈ ([66048, 67072, 67328, 76288, 76544, 70144, 74496, 74240, 74752, 75008, 75264,
      75520, 75776, 80640, 80896, 87552, 87808, 81152] : List ℤ) then .read
  else if msgType ∈ ([65792, 69120, 66560, 76800, 76032, 77312] : List ℤ) then .put
  else if msgType ∈ ([66304, 67840, 77056] : List ℤ) then .remove
  else if msgType ∈ ([69632, 69888, 70400, 78592] : List ℤ) then .lock
  else if msgType ∈ ([71936, 71424, 72448, 81664] : List ℤ) then .listen
  else .put

def service (msgType : ℤ) : ℤ := msgType / 2 ^ 16

def classify (msgType : ℤ) : Decision :=
  let service := service msgType
  if service = 1 then .data .map (mapAction msgType)
  else if service = 13 ∨ service = 14 ∨ service = 19 then .data .map coarseAction
  else if service = 2 then .data .multiMap coarseAction
  else if service = 3 then .data .queue coarseAction
  else if service = 4 then .data .topic coarseAction
  else if service = 5 then .data .list coarseAction
  else if service = 6 then .data .set coarseAction
  else if service = 23 then .data .ringbuffer coarseAction
  else if service = 29 then .data .pnCounter coarseAction
  else if service = 33 then .data .sql coarseAction
  else if service = 8 then .data .job coarseAction
  else if service = 0 ∨ service = 21 ∨ service = 28 then .infra
  else if service = 32 then .adminOnly
  else .unknown

theorem mapAction_ne_admin (msgType : ℤ) : mapAction msgType ≠ .admin := by
  unfold mapAction
  repeat' split
  all_goals exact fun h => Action.noConfusion h

/-- The decisions of the source's own tests. -/
example : classify 65792 = .data .map .put ∧ classify 66048 = .data .map .read ∧
    classify 66304 = .data .map .remove ∧ classify 2163712 = .data .sql .put := by decide

end BonsaiGrid.Security
