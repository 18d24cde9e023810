import StrikeDB.Text
import Std.Data.ExtTreeMap

/-!
# StrikeDB: the table of users

Users with their password, their switch, their command rules and their key patterns; the rules of
`ACL SETUSER`, the text that `ACL SAVE` writes and the reading of it back.

Passwords are hashed by a parameter of this file, and salts come from outside.
`str::to_lowercase` is a parameter too, since it is that of all of Unicode.
-/

namespace StrikeDB
namespace Acl

/-- `to_ascii_lowercase`. -/
def ascii_lowercase (t : Text) : Text := t.map fun b => if 65 ≤ b ∧ b ≤ 90 then b + 32 else b

/-! ## Users -/

inductive PermCategory where
  | All
  | Read
  | Write
  | Admin
  | Dangerous
  | PubSub
  | Vector
  | TimeSeries
  | Memory
  | Table
  | Reduce
  | Connection
deriving DecidableEq

namespace PermCategory

def name : PermCategory → Text
  | All => utf8 "all"
  | Read => utf8 "read"
  | Write => utf8 "write"
  | Admin => utf8 "admin"
  | Dangerous => utf8 "dangerous"
  | PubSub => utf8 "pubsub"
  | Vector => utf8 "vector"
  | TimeSeries => utf8 "timeseries"
  | Memory => utf8 "memory"
  | Table => utf8 "table"
  | Reduce => utf8 "reduce"
  | Connection => utf8 "connection"

def from_str (s : Text) : Option PermCategory :=
  let s := ascii_lowercase s
  if s = utf8 "all" ∨ s = utf8 "*" then some All
  else if s = utf8 "read" then some Read
  else if s = utf8 "write" then some Write
  else if s = utf8 "admin" then some Admin
  else if s = utf8 "dangerous" then some Dangerous
  else if s = utf8 "pubsub" then some PubSub
  else if s = utf8 "vector" then some Vector
  else if s = utf8 "timeseries" then some TimeSeries
  else if s = utf8 "memory" ∨ s = utf8 "rag" then some Memory
  else if s = utf8 "table" then some Table
  else if s = utf8 "reduce" then some Reduce
  else if s = utf8 "connection" then some Connection
  else none

/-- Every category is read back from its name. -/
theorem from_str_name (c : PermCategory) : from_str c.name = some c := by
  cases c <;> decide +kernel

end PermCategory

inductive Rule where
  | AllowCmd (c : Text)
  | DenyCmd (c : Text)
  | AllowCat (c : PermCategory)
  | DenyCat (c : PermCategory)
deriving DecidableEq

abbrev Salt := { b : Bytes // b.length = 16 }
abbrev Hash := { b : Bytes // b.length = 32 }

structure User where
  name : Text
  /-- `none` is `nopass`: any password authenticates. -/
  password : Option (Salt × Hash)
  enabled : Bool
  /-- In the order given; the last rule that matches wins. -/
  rules : List Rule
  key_patterns : List Bytes
deriving DecidableEq

namespace User

/-- No password matches this hash. -/
def noPassword : Option (Salt × Hash) :=
  some (⟨List.replicate 16 0, rfl⟩, ⟨List.replicate 32 0xff, rfl⟩)

def new_restricted (name : Text) : User :=
  { name := name, password := noPassword, enabled := false, rules := [], key_patterns := [] }

def superuser (name : Text) : User :=
  { name := name, password := none, enabled := true, rules := [.AllowCat .All]
    key_patterns := [utf8 "*"] }

/-- May this user run `cmd` (in upper case), whose categories are `cats`? -/
def can_command (u : User) (cmd : Text) (cats : List PermCategory) : Bool :=
  if !u.enabled then false
  else if [utf8 "AUTH", utf8 "HELLO", utf8 "QUIT", utf8 "PING", utf8 "RESET"].contains cmd then true
  else
    u.rules.foldl (fun allowed r =>
      match r with
      | .AllowCmd c => if c = cmd then true else allowed
      | .DenyCmd c => if c = cmd then false else allowed
      | .AllowCat c => if c = .All ∨ c ∈ cats then true else allowed
      | .DenyCat c => if c = .All ∨ c ∈ cats then false else allowed) false

end User

/-- The table of users, whether a password is required, and the latch that turns the permission
checks on. -/
structure AclStore where
  users : Std.ExtTreeMap Text User
  requirepass : Bool
  strict : Bool

/-! ## Hexadecimal -/

def hex_encode (b : Bytes) : Text := b.flatMap fun (x : UInt8) => [hexDigit (x >>> 4), hexDigit (x &&& 15)]

/-- One hexadecimal digit of either case. -/
def hexValue (b : UInt8) : Option UInt8 :=
  if 0x30 ≤ b ∧ b ≤ 0x39 then some (b - 0x30)
  else if 0x61 ≤ b ∧ b ≤ 0x66 then some (b - 0x57)
  else if 0x41 ≤ b ∧ b ≤ 0x46 then some (b - 0x37)
  else none

/-- `u8::from_str_radix` of two characters; a leading plus is allowed. -/
def hexByte (hi lo : UInt8) : Option UInt8 :=
  if hi = 0x2b then hexValue lo
  else
    match hexValue hi, hexValue lo with
    | some h, some l => some (h * 16 + l)
    | _, _ => none

def hexDecode : Text → Option Bytes
  | [] => some []
  | [_] => none
  | hi :: lo :: rest =>
      match hexByte hi lo, hexDecode rest with
      | some b, some bs => some (b :: bs)
      | _, _ => none

/-- `split_once`. -/
def splitOnce (sep : UInt8) : Text → Option (Text × Text)
  | [] => none
  | b :: t => if b = sep then some ([], t) else (splitOnce sep t).map fun r => (b :: r.1, r.2)

def COLON : UInt8 := 0x3a

/-- `<salt hex>:<hash hex>`. -/
def parse_hashed (raw : Text) : Option (Salt × Hash) :=
  match splitOnce COLON raw with
  | none => none
  | some (s, h) =>
      match hexDecode s, hexDecode h with
      | some s, some h =>
          if hs : s.length = 16 then
            if hh : h.length = 32 then some (⟨s, hs⟩, ⟨h, hh⟩) else none
          else none
      | _, _ => none

/-! ## ACL SETUSER -/

section SetUser

variable (hash_password : Text → Salt → Hash)

def parse_rule (rest : Text) (allow : Bool) : Except Text Rule :=
  match rest with
  | 0x40 :: cat =>
      match PermCategory.from_str cat with
      | none => .error (utf8 "Error in ACL SETUSER modifier '@" ++ cat ++
          utf8 "': Unknown command category")
      | some c => .ok (if allow then .AllowCat c else .DenyCat c)
  | [] => .error (utf8 "Error in ACL SETUSER modifier: empty command")
  | rest =>
      let c := Text.to_ascii_uppercase rest
      .ok (if allow then .AllowCmd c else .DenyCmd c)

/-- A token that is no keyword, told by its first character. -/
def apply_modifier (u : User) (t : Text) (salt : Salt) : Except Text User :=
  match t with
  | 0x23 :: raw =>
      match parse_hashed raw with
      | none => .error (utf8 "Error in ACL SETUSER modifier '" ++ t ++ utf8 "': bad hash")
      | some p => .ok { u with password := some p }
  | 0x3e :: pw => .ok { u with password := some (salt, hash_password pw salt) }
  | 0x7e :: pat => .ok { u with key_patterns := u.key_patterns ++ [pat] }
  | 0x2b :: rest => (parse_rule rest true).map fun r => { u with rules := u.rules ++ [r] }
  | 0x2d :: rest => (parse_rule rest false).map fun r => { u with rules := u.rules ++ [r] }
  | _ => .error (utf8 "Error in ACL SETUSER modifier '" ++ t ++ utf8 "': Syntax error")

/-- One token, with the salt that is drawn if it sets a password. -/
def apply_token (username : Text) (u : User) (t : Text) (salt : Salt) : Except Text User :=
  let lower := ascii_lowercase t
  if lower = utf8 "on" then .ok { u with enabled := true }
  else if lower = utf8 "off" then .ok { u with enabled := false }
  else if lower = utf8 "nopass" then .ok { u with password := none }
  else if lower = utf8 "resetpass" then .ok { u with password := User.noPassword }
  else if lower = utf8 "allkeys" then .ok { u with key_patterns := [utf8 "*"] }
  else if lower = utf8 "resetkeys" then .ok { u with key_patterns := [] }
  else if lower = utf8 "allcommands" then .ok { u with rules := [.AllowCat .All] }
  else if lower = utf8 "nocommands" then .ok { u with rules := [] }
  else if lower = utf8 "reset" then .ok (User.new_restricted username)
  else apply_modifier hash_password u t salt

/-- All tokens in turn, the first error ends it. -/
def apply_tokens (username : Text) : User → List Text → (Nat → Salt) → Except Text User
  | u, [], _ => .ok u
  | u, t :: ts, salts =>
      match apply_token hash_password username u t (salts 0) with
      | .error e => .error e
      | .ok u' => apply_tokens username u' ts fun i => salts (i + 1)

def set_user (s : AclStore) (username : Text) (tokens : List Text) (salts : Nat → Salt) :
    Except Text AclStore :=
  let u := (s.users[username]?).getD (User.new_restricted username)
  match apply_tokens hash_password username u tokens salts with
  | .error e => .error e
  | .ok u => .ok { s with users := s.users.insert username u, strict := true }

def del_user (s : AclStore) (username : Text) : AclStore × Bool :=
  if username = utf8 "default" then (s, false)
  else
    match s.users[username]? with
    | none => (s, false)
    | some _ => ({ s with users := s.users.erase username, strict := true }, true)

/-- The store of a server that starts with this password, or with none. -/
def AclStore.new (requirepass : Option Text) (salt : Salt) : AclStore :=
  let default :=
    { User.superuser (utf8 "default") with
      password := requirepass.map fun pw => (salt, hash_password pw salt) }
  { users := (∅ : Std.ExtTreeMap Text User).insert (utf8 "default") default
    requirepass := requirepass.isSome
    strict := requirepass.isSome }

end SetUser

/-! ## ACL SAVE and ACL LOAD -/

def SPACE : UInt8 := 0x20
def NEWLINE : UInt8 := 0x0a
def RETURN : UInt8 := 0x0d

section Dump

variable (to_lowercase : Text → Text)

def Rule.describe : Rule → Text
  | .AllowCmd c => 0x2b :: to_lowercase c
  | .DenyCmd c => 0x2d :: to_lowercase c
  | .AllowCat c => 0x2b :: 0x40 :: c.name
  | .DenyCat c => 0x2d :: 0x40 :: c.name

/-- The parts of a description. -/
def User.parts (u : User) : List Text :=
  [if u.enabled then utf8 "on" else utf8 "off"] ++
    (if u.password.isNone then [utf8 "nopass"] else []) ++
    u.key_patterns.map (fun p => 0x7e :: Text.from_utf8_lossy p) ++
    u.rules.map (Rule.describe to_lowercase)

def User.describe (u : User) : Text := [SPACE].intercalate (u.parts to_lowercase)

def passwordToken : Option (Salt × Hash) → Text
  | none => utf8 "nopass"
  | some (salt, hash) => 0x23 :: (hex_encode salt.1 ++ [COLON] ++ hex_encode hash.1)

/-- The line of one user: the description is taken apart again to drop `nopass`. -/
def User.line (u : User) : Text :=
  [SPACE].intercalate
    ([u.name, utf8 "reset", passwordToken u.password] ++
      ((u.describe to_lowercase).splitOn SPACE).filter (· ≠ utf8 "nopass"))

/-- The lines of all users, sorted. -/
def AclStore.lines (s : AclStore) : List Text :=
  (s.users.toList.map fun e => e.2.line to_lowercase).mergeSort fun a b => (compare a b).isLE

def dump (s : AclStore) : Text := [NEWLINE].intercalate (s.lines to_lowercase)

end Dump

/-- A carriage return before the line end belongs to it. -/
def stripReturn (l : Text) : Text := if l.getLast? = some RETURN then l.dropLast else l

/-- `str::lines`: the last line may lack its line end, and then keeps a carriage return. -/
def textLines (t : Text) : List Text :=
  let pieces := t.splitOn NEWLINE
  pieces.dropLast.map stripReturn ++ (if pieces.getLast? = some [] then [] else pieces.getLast?.toList)

/-- `trim().is_empty()`: all characters are white space. -/
def isBlank : Text → Bool
  | [] => true
  | 0xc2 :: 0x85 :: t => isBlank t
  | 0xc2 :: 0xa0 :: t => isBlank t
  | 0xe1 :: 0x9a :: 0x80 :: t => isBlank t
  | 0xe2 :: 0x80 :: c :: t =>
      ((0x80 ≤ c && c ≤ 0x8a) || c == 0xa8 || c == 0xa9 || c == 0xaf) && isBlank t
  | 0xe2 :: 0x81 :: 0x9f :: t => isBlank t
  | 0xe3 :: 0x80 :: 0x80 :: t => isBlank t
  | b :: t => ((0x09 ≤ b && b ≤ 0x0d) || b == 0x20) && isBlank t

section Load

variable (hash_password : Text → Salt → Hash)

/-- One line after the other, into a table that is empty at first. -/
def load_lines : AclStore → List Text → (Nat → Nat → Salt) → Except Text AclStore
  | s, [], _ => .ok s
  | s, l :: ls, salts =>
      match l.splitOn SPACE with
      | [] => .error (utf8 "empty ACL line")
      | name :: toks =>
          match set_user hash_password s name toks (salts 0) with
          | .error e => .error e
          | .ok s' => load_lines s' ls fun i => salts (i + 1)

/-- Replace the table of users by that of a dump. -/
def load (s : AclStore) (text : Text) (salts : Nat → Nat → Salt) : Except Text (AclStore × Nat) :=
  let ls := (textLines text).filter fun l => !isBlank l
  match load_lines hash_password { users := ∅, requirepass := s.requirepass, strict := true } ls salts with
  | .error e => .error e
  | .ok staged =>
      if staged.users[utf8 "default"]?.isNone then .error (utf8 "ACL dump has no default user")
      else .ok ({ s with users := staged.users, strict := true }, ls.length)

end Load

end Acl
end StrikeDB
