import BonsaiGrid.Lib.Utf8
import Mathlib.Data.List.MinMax

/-!
# A member's view of the cluster

The members are listed in the order in which they joined; one that has died stays in the list and
is marked as dead. The owner of a partition is the first living member from its place in the list
on.
-/

namespace BonsaiGrid.Membership

instance instLawfulBEqUuid : LawfulBEq (ℤ × ℤ) := inferInstance

structure MemberInfo where
  uuid : ℤ × ℤ
  host : Str
  clientPort : ℤ
  memberPort : ℤ
  joinId : ℕ
deriving DecidableEq

structure Cluster where
  members : List MemberInfo
  alive : List Bool
  backups : ℕ
  quorum : ℕ
  generation : ℕ
deriving DecidableEq

namespace Cluster

def new (members : List MemberInfo) (backups quorum : ℕ) : Cluster where
  members
  alive := members.map fun _ => true
  backups
  quorum := max quorum 1
  generation := 1

variable (c : Cluster)

def liveCount : ℕ := c.alive.count true

def hasQuorum : Bool := max c.quorum 1 ≤ c.liveCount

def indexOfJoin (joinId : ℕ) : Option ℕ := c.members.findIdx? (·.joinId = joinId)

def indexOfUuid (uuid : ℤ × ℤ) : Option ℕ := c.members.findIdx? (·.uuid = uuid)

def maxJoinId : ℕ := (c.members.map MemberInfo.joinId).max?.getD 0

def master : Option ℕ :=
  ((List.range c.members.length).filter fun i => c.alive[i]? = some true).argmin fun i =>
    c.members[i]?.map MemberInfo.joinId |>.getD 0

def bump : Cluster :=
  { c with generation := c.generation + 1 }

def promote (joinId : ℕ) : Cluster :=
  match c.members.findIdx? (·.joinId = joinId) with
  | some i => if c.alive[i]? = some true then bump { c with alive := c.alive.set i false } else c
  | none => c

def removeMemberByUuid (uuid : ℤ × ℤ) : Cluster × Bool :=
  match c.indexOfUuid uuid with
  | some i =>
    if c.alive[i]? = some true then (bump { c with alive := c.alive.set i false }, true)
    else (c, false)
  | none => (c, false)

/-- `add_member`: a new member is added with a join id of its own and a dead one is revived. -/
def addMember (info : MemberInfo) : Cluster × Option ℕ :=
  match c.indexOfUuid info.uuid with
  | some i =>
    if c.alive[i]? = some true then (c, none)
    else
      (bump { c with alive := c.alive.set i true }, c.members[i]?.map MemberInfo.joinId)
  | none =>
    let joinId :=
      if info.joinId = 0 ∨ (c.indexOfJoin info.joinId).isSome then c.maxJoinId + 1
      else info.joinId
    (bump { c with
      members := c.members ++ [{ info with joinId }]
      alive := c.alive ++ [true] }, some joinId)

def setView (generation : ℕ) (members : List MemberInfo) (alive : List Bool) :
    Cluster × Bool :=
  if generation ≤ c.generation then (c, false)
  else
    ({ c with members, alive, generation }, true)

theorem backups_promote (joinId : ℕ) : (c.promote joinId).backups = c.backups := by
  rw [promote]
  split
  · split
    · rfl
    · rfl
  · rfl

theorem backups_setView (generation : ℕ) (members : List MemberInfo)
    (alive : List Bool) : (c.setView generation members alive).1.backups = c.backups := by
  rw [setView]
  split
  · rfl
  · rfl

def owner (partition : ℤ) : ℕ :=
  let home := (partition % c.members.length).toNat
  (((List.range c.members.length).map fun j => (home + j) % c.members.length).find? fun i =>
    c.alive[i]? = some true).getD home

def backupsFrom (c : Cluster) (owner want : ℕ) : List ℕ → List ℕ → List ℕ
  | [], out => out
  | j :: js, out =>
    if out.length < want then
      let i := (owner + j) % c.members.length
      backupsFrom c owner want js (if c.alive[i]? = some true then out ++ [i] else out)
    else out

def backupsOf (partition : ℤ) : List ℕ :=
  let want := min c.backups (c.liveCount - 1)
  c.backupsFrom (c.owner partition) want ((List.range (c.members.length - 1)).map (· + 1)) []

def living : List MemberInfo :=
  ((c.members.zip c.alive).filter Prod.snd).map Prod.fst

end Cluster

def loopback : Str := ⟨[49, 50, 55, 46, 48, 46, 48, 46, 49], by decide⟩

def bootstrapMembers (n : ℕ) : List MemberInfo :=
  (List.range n).map fun (i : ℕ) =>
    { uuid := (1, i + 1), host := loopback, clientPort := 5701 + i, memberPort := 7701 + i,
      joinId := i }

def defaultQuorum (clusterSize : ℕ) : ℕ := clusterSize / 2 + 1

end BonsaiGrid.Membership
