import Stigmergy.Kernel.Runtime

/-!
# Provenance locators

`capture/provenance.py`, over `urllib.parse`: a web address is stored without its query, its fragment
and its default port, and one that carries a user is refused.

* `urlsplit`           scheme, network location and path of an address;
* `withoutCapability`  the address as it may be stored.
-/

set_option linter.unusedSectionVars false

namespace Provenance

/-- the checks of `urllib.parse` that rest on other modules -/
structure Urls where
  /-- `_checknetloc`: normalised, the network location holds no new delimiter -/
  checkNetloc : Text → Bool
  /-- `_check_bracketed_host`: an address of `ipaddress` -/
  checkBracketedHost : Text → Bool

/-- `str.partition(sep)` for one character: before it, whether it is there, after it -/
def partition (sep : Char) (t : Text) : Text × Bool × Text :=
  let before := t.takeWhile (· != sep)
  (before, decide (before.length < t.length), t.drop (before.length + 1))

/-- `str.rpartition(sep)` -/
def rpartition (sep : Char) (t : Text) : Text × Bool × Text :=
  match partition sep t.reverse with
  | (after, found, before) => (before.reverse, found, after.reverse)

def isAsciiAlpha (c : Char) : Bool := ('a' ≤ c && c ≤ 'z') || ('A' ≤ c && c ≤ 'Z')
def isAsciiDigit (c : Char) : Bool := '0' ≤ c && c ≤ '9'

/-- `scheme_chars` -/
def isSchemeChar (c : Char) : Bool := isAsciiAlpha c || isAsciiDigit c || "+-.".toList.contains c

structure SplitResult where
  scheme : Text
  netloc : Text
  path : Text

section
variable (R : Runtime) (U : Urls)

/-- the scheme in front of the first colon, and the rest -/
def splitScheme (url : Text) : Text × Text :=
  match partition ':' url with
  | (c :: scheme, true, rest) =>
    if isAsciiAlpha c && scheme.all isSchemeChar then (R.lower (c :: scheme), rest) else ([], url)
  | _ => ([], url)

def isDelimiter (c : Char) : Bool := c == '/' || c == '?' || c == '#'

/-- `_splitnetloc` of what follows `//` -/
def splitNetloc (url : Text) : Text × Text :=
  if Text.startsWith "//".toList url then
    ((url.drop 2).takeWhile (!isDelimiter ·), (url.drop 2).dropWhile (!isDelimiter ·))
  else ([], url)

def urlsplit (value : Text) : Except Text SplitResult :=
  let url := (value.dropWhile fun c => c.toNat ≤ 0x20).filter fun c => c != '\t' && c != '\r' && c != '\n'
  let (scheme, rest) := splitScheme R url
  let (netloc, rest) := splitNetloc rest
  let path := (partition '?' (partition '#' rest).1).1
  if List.elem '[' netloc != List.elem ']' netloc then .error "Invalid IPv6 URL".toList
  else if List.elem '[' netloc &&
      !U.checkBracketedHost (partition ']' (partition '[' netloc).2.2).1 then
    .error "Invalid IPv6 URL".toList
  else if !U.checkNetloc netloc then
    .error "netloc contains invalid characters under NFKC normalization".toList
  else .ok ⟨scheme, netloc, path⟩

namespace SplitResult

/-- `username` and `password`; what is missing is empty here -/
def userinfo (s : SplitResult) : Text × Text :=
  match rpartition '@' s.netloc with
  | (user, true, _) => ((partition ':' user).1, (partition ':' user).2.2)
  | _ => ([], [])

/-- `_hostinfo`: the host and the text of the port -/
def hostinfo (s : SplitResult) : Text × Text :=
  let host := (rpartition '@' s.netloc).2.2
  match partition '[' host with
  | (_, true, bracketed) =>
    let (hostname, _, port) := partition ']' bracketed
    (hostname, (partition ':' port).2.2)
  | _ => ((partition ':' host).1, (partition ':' host).2.2)

/-- `hostname`: a zone keeps its case -/
def hostname (s : SplitResult) : Text :=
  let (name, zoned, zone) := partition '%' s.hostinfo.1
  R.lower name ++ (if zoned then ['%'] else []) ++ zone

/-- `port`, nothing when there is none -/
def port (s : SplitResult) : Except Text (Option ℕ) :=
  let text := s.hostinfo.2
  if text.isEmpty then .ok none
  else if text.all isAsciiDigit then
    let port := text.foldl (fun n c => 10 * n + (c.toNat - '0'.toNat)) 0
    if port ≤ 65535 then .ok (some port) else .error "Port out of range 0-65535".toList
  else .error "Port could not be cast to integer value".toList

end SplitResult

/-- `urlunsplit` of a web scheme, with no query and no fragment -/
def urlunsplit (scheme netloc path : Text) : Text := scheme ++ "://".toList ++ netloc ++ path

def withoutCapability (value : Text) : Except Text Text :=
  (urlsplit R U value).bind fun parsed =>
    let scheme := R.lower parsed.scheme
    if scheme ≠ "http".toList ∧ scheme ≠ "https".toList then .ok value
    else if (parsed.hostname R).isEmpty || !parsed.userinfo.1.isEmpty || !parsed.userinfo.2.isEmpty then
      .error "provenance URL is invalid".toList
    else
      match parsed.port with
      | .error _ => .error "provenance URL is invalid".toList
      | .ok port =>
        let hostname := R.lower ((parsed.hostname R).rdropWhile (· == '.'))
        let host := if List.elem ':' hostname then '[' :: hostname ++ [']'] else hostname
        let defaultPort := if scheme = "https".toList then 443 else 80
        let host := match port with
          | some p => if p = defaultPort then host else host ++ ':' :: Nat.toDigits 10 p
          | none => host
        .ok (urlunsplit scheme host (if parsed.path.isEmpty then ['/'] else parsed.path))

end

end Provenance
