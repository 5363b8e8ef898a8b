import SyServer.Types
import SyServer.Lib.Scan

/-! # The URI automaton

`sy_parse_uri` of `httpparse.c`, one byte at a time: `parseUri addr i ch uri` is the call with
`p = rb.data + i` and `*p = ch`, where `addr` is the address of `rb.data`.

The source's bytes come in five groups (`UriByte`): space, `.`, `?`, `/`, and the list
`ALLOWED_IN_ABS_PATH` (which is also `ALLOWED_IN_EXTENSION`); everything else is rejected.

Two of the source's arms run on into the next one or leave a field alone, and the model keeps
both: `case URI_S_ABS_PATH_ENTRY` has no `break` behind its inner `switch`, so each byte it
accepts is handled once more by `case URI_S_EXTENSION`; and `case URI_S_EXTENSION` does not set
`abs_path.len` at `?`. -/

namespace SyServer

/-- The bytes of `ALLOWED_IN_ABS_PATH`. -/
def allowedInAbsPath (c : UInt8) : Bool :=
  isUpper c || isLower c || isDigit c ||
    (bytes "-_!~*'()%:@&=+$,;").contains c

/-- The groups the path states distinguish. -/
inductive UriByte where
  | space
  | dot
  | question
  | slash
  | allowed
  | other
deriving DecidableEq, Repr

def uriByte (c : UInt8) : UriByte :=
  if c = cSp then .space
  else if c = cDot then .dot
  else if c = cQuestion then .question
  else if c = cSlash then .slash
  else if allowedInAbsPath c then .allowed
  else .other

/-- Why the parser leaves its loop early: a return code, or a failed assertion. -/
inductive Stop where
  | ret (rc : Rc)
  | abort (f : Fault)
deriving DecidableEq, Repr

/-- `p - q` for `p = rb.data + i`, as an `int`.  Within `rb` it is exact; against another
object it is the difference of the two addresses. -/
def ptrDiff (addr i : ℕ) : Ptr → ℤ
  | .rb off => (i : ℤ) - off
  | .null off => wrap32 ((addr : ℤ) + i - off)
  | .lit _ off => wrap32 ((addr : ℤ) + i - off)

/-- `if (uri->nentries >= uri->nddots) ++uri->nentries;` -/
def Uri.countEntry (u : Uri) : Uri :=
  if u.nentries ≥ u.nddots then { u with nentries := u.nentries + 1 } else u

/-- `uri->abs_path.len = p - uri->abs_path.data;` -/
def Uri.endPath (addr i : ℕ) (u : Uri) : Uri :=
  { u with absPath := { u.absPath with len := ptrDiff addr i u.absPath.data } }

/-- `++uri->extension.data; uri->extension.len = p - uri->extension.data;` -/
def Uri.endExtension (addr i : ℕ) (u : Uri) : Uri :=
  let data := u.extension.data.add 1
  { u with extension := ⟨data, ptrDiff addr i data⟩ }

/-- `case URI_S_EXTENSION`. -/
def uriExtension (addr i : ℕ) (ch : UInt8) (u : Uri) : Except Stop Uri :=
  match uriByte ch with
  | .space =>
      .ok { ((u.countEntry.endExtension addr i).endPath addr i) with state := .uriBegin }
  | .dot => .ok { u with extension := { u.extension with data := .rb i } }
  | .slash =>
      .ok { u.countEntry with
        extension := { u.extension with data := .NULL }, state := .uriAbsPathSlash }
  | .question =>
      .ok { (u.countEntry.endExtension addr i) with
        query := { u.query with data := .rb i }, state := .uriQuery }
  | .allowed => .ok u
  | .other => .error (.ret .errInvalidUri)

/-- The inner `switch` of `case URI_S_ABS_PATH_ENTRY`. -/
def uriEntry (addr i : ℕ) (ch : UInt8) (u : Uri) : Except Stop Uri :=
  match uriByte ch with
  | .space => .ok { (u.countEntry.endPath addr i) with state := .uriBegin }
  | .dot => .ok { u with extension := { u.extension with data := .rb i }, state := .uriExtension }
  | .question =>
      .ok { (u.countEntry.endPath addr i) with
        query := { u.query with data := .rb i }, state := .uriQuery }
  | .slash => .ok { u.countEntry with state := .uriAbsPathSlash }
  | .allowed => .ok u
  | .other => .error (.ret .errInvalidUri)

/-- `sy_parse_uri`. -/
def parseUri (addr i : ℕ) (ch : UInt8) (u : Uri) : Except Stop Uri :=
  let invalid := .error (.ret .errInvalidUri)
  match u.state with
  | .uriBegin =>
      if ch = cSlash then
        .ok { u with absPath := { u.absPath with data := .rb i }, state := .uriAbsPathSlash }
      else if isAlpha ch then
        .ok { u with scheme := { u.scheme with data := .rb i }, state := .uriScheme }
      else invalid
  | .uriScheme =>
      if isAlpha ch || isDigit ch || (bytes "+-.").contains ch then .ok u
      else if ch = cColon then
        .ok { u with
          scheme := { u.scheme with len := ptrDiff addr i u.scheme.data }, state := .uriSchemeColon }
      else invalid
  | .uriSchemeColon => if ch = cSlash then .ok { u with state := .uriSchemeSlash } else invalid
  | .uriSchemeSlash =>
      if ch = cSlash then .ok { u with state := .uriSchemeSlashSlash } else invalid
  | .uriSchemeSlashSlash =>
      if isAlpha ch || isDigit ch then
        .ok { u with host := { u.host with data := .rb i }, state := .uriHost }
      else invalid
  | .uriHost =>
      if isAlpha ch || isDigit ch || ch = cDot || ch = cDash then .ok u
      else if ch = cColon then .ok { u with state := .uriPort }
      else if ch = cSlash then
        .ok { u with absPath := { u.absPath with data := .rb i }, state := .uriAbsPathSlash }
      else invalid
  | .uriPort =>
      let port : Str := ⟨u.port.data.add 1, ptrDiff addr i (u.port.data.add 1)⟩
      if ch = cSp then
        -- the path is the second slash before the host
        let slash := match u.host.data with
          | .rb off => Ptr.rb (off - 2)
          | p => p
        .ok { u with absPath := ⟨slash, 1⟩, port := port, state := .uriBegin }
      else if ch = cSlash then
        .ok { u with
          absPath := { u.absPath with data := .rb i }, port := port, state := .uriAbsPathSlash }
      else if isDigit ch then .ok u
      else invalid
  | .uriAbsPathSlash =>
      match uriByte ch with
      | .space => .ok { (u.endPath addr i) with state := .uriBegin }
      | .dot => .ok { u with state := .uriAbsPathDot }
      | .question =>
          .ok { (u.endPath addr i) with
            query := { u.query with data := .rb i }, state := .uriQuery }
      | .slash => .ok u
      | .allowed => .ok { u with state := .uriAbsPathEntry }
      | .other => invalid
  | .uriAbsPathDot =>
      match uriByte ch with
      | .space => .ok { (u.endPath addr i) with state := .uriBegin }
      | .dot => .ok { u with state := .uriAbsPathDdot }
      | .question =>
          .ok { (u.endPath addr i) with
            query := { u.query with data := .rb i }, state := .uriQuery }
      | .slash => .ok { u with state := .uriAbsPathSlash }
      | .allowed =>
          .ok { u with
            extension := { u.extension with data := .rb (i - 1) }, state := .uriExtension }
      | .other => invalid
  | .uriAbsPathDdot =>
      match uriByte ch with
      | .space =>
          .ok { ({ u with nddots := u.nddots + 1 }.endPath addr i) with state := .uriBegin }
      | .dot | .allowed =>
          .ok { u with extension := { u.extension with data := .rb i }, state := .uriExtension }
      | .question =>
          .ok { ({ u with nddots := u.nddots + 1 }.endPath addr i) with
            query := { u.query with data := .rb i }, state := .uriQuery }
      | .slash => .ok { u with nddots := u.nddots + 1, state := .uriAbsPathSlash }
      | .other => invalid
  | .uriAbsPathEntry =>
      -- no `break` behind the inner `switch`: the byte goes through the extension arm as well
      match uriEntry addr i ch u with
      | .ok u' => uriExtension addr i ch u'
      | .error e => .error e
  | .uriExtension => uriExtension addr i ch u
  | .uriQuery =>
      if ch = cSp then
        let data := u.query.data.add 1
        .ok { u with query := ⟨data, ptrDiff addr i data⟩, state := .uriBegin }
      else if uriByte ch ≠ .other then .ok u
      else invalid
  | _ => .error (.abort .uriState)

/-- The only error code of the automaton. -/
theorem parseUri_error {addr i : ℕ} {ch : UInt8} {u : Uri} {rc : Rc}
    (h : parseUri addr i ch u = .error (.ret rc)) : rc = .errInvalidUri := by
  have hentry : uriEntry addr i ch u = .error (.ret rc) → rc = .errInvalidUri := by
    unfold uriEntry
    cases uriByte ch <;> intro h <;> cases h
    rfl
  have hext : ∀ v, uriExtension addr i ch v = .error (.ret rc) → rc = .errInvalidUri := by
    unfold uriExtension
    cases uriByte ch <;> intro v h <;> cases h
    rfl
  unfold parseUri at h
  cases hs : u.state <;> rw [hs] at h <;> dsimp only at h
  case uriAbsPathEntry =>
      cases he : uriEntry addr i ch u with
      | ok v => rw [he] at h; exact hext v h
      | error e => rw [he] at h; cases h; exact hentry he
  case uriExtension => exact hext u h
  all_goals
    try split_ifs at h
    all_goals
      try (cases hb : uriByte ch <;> rw [hb] at h)
      all_goals cases h <;> rfl

end SyServer
