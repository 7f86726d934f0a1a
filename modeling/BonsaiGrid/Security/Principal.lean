import BonsaiGrid.Lib.Dict
import BonsaiGrid.Lib.Utf8

/-!
# Principals, grants and the identity provider

A grant names a type of resource, a pattern for the names and a set of actions. A principal is
authorized for an action if it is an administrator or one of its grants matches.
-/

namespace BonsaiGrid.Security

inductive ResourceType
  | map
  | multiMap
  | queue
  | list
  | set
  | ringbuffer
  | topic
  | pnCounter
  | lock
  | sql
  | job
  | cluster
deriving DecidableEq

inductive Action
  | create
  | destroy
  | read
  | put
  | remove
  | listen
  | lock
  | offer
  | poll
  | admin
deriving DecidableEq

abbrev ActionSet := List Action

def ActionSet.permits (s : ActionSet) (a : Action) : Bool := a ∈ s ∨ Action.admin ∈ s

structure Permission where
  resourceType : ResourceType
  name : Str
  actions : ActionSet
deriving DecidableEq

def nameMatches (pattern name : Str) : Bool :=
  if pattern.bytes = [42] then true
  else if pattern.bytes.getLast? = some 42 then pattern.bytes.dropLast.isPrefixOf name.bytes
  else pattern.bytes = name.bytes

structure Principal where
  grants : List Permission
  isAdmin : Bool
deriving DecidableEq

def Principal.authorize (p : Principal) (rt : ResourceType) (name : Str) (action : Action) : Bool :=
  p.isAdmin || p.grants.any fun g =>
    g.resourceType = rt && g.actions.permits action && nameMatches g.name name

structure CredentialHash where
  salt : Bytes
  iterations : ℕ
  hash : Bytes
deriving DecidableEq

/-- The key derivation of the `pbkdf2` crate: password, salt and iterations. -/
class Pbkdf2 where
  hash : Bytes → Bytes → ℕ → Bytes

def CredentialHash.verify [Pbkdf2] (c : CredentialHash) (password : Bytes) : Bool :=
  Pbkdf2.hash password c.salt c.iterations = c.hash

structure StaticIdentityProvider where
  principals : Dict Str (CredentialHash × Principal)
  anonymous : Principal
  requireAuth : Bool

namespace StaticIdentityProvider

def authenticate [Pbkdf2] (s : StaticIdentityProvider) (user pass : Option Str) :
    Option Principal :=
  match user with
  | none => if s.requireAuth then none else some s.anonymous
  | some name =>
    match s.principals.lookup name with
    | none => none
    | some (cred, principal) =>
      if cred.verify ((pass.map Str.bytes).getD []) then some principal else none

def authenticateCert (s : StaticIdentityProvider) (cn : Str) : Option Principal :=
  (s.principals.lookup cn).map Prod.snd

end StaticIdentityProvider

end BonsaiGrid.Security
