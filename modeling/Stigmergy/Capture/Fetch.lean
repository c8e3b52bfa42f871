import Mathlib.Data.List.Lex
import Mathlib.Data.Char
import Stigmergy.Lib.SortedSet
import Stigmergy.Lib.Text
import Stigmergy.Kernel.Ascii
import Stigmergy.Capture.Provenance

/-!
# Fetching a public URL

`capture/fetch.py`.  Every URL of a chain of redirects is taken apart, looked up and checked before it is
requested, and the connection goes to an address of that lookup.  What the name service and the servers answer
may depend on all requests before.

* `resolveUrl`, `of_resolveUrl`   what is known of a URL that is requested;
* `keep`, `length_keep`           the bytes of a body that are kept;
* `fetchFrom`, `checked_fetchFrom`   every request of a chain;
* `public_fetch`                  the connections, the requests and the artifact of a fetch.
-/

set_option linter.unusedSectionVars false

namespace Fetch

open Provenance

def MAX_REDIRECTS : ℕ := 5
def REDIRECTS : List ℕ := [301, 302, 303, 307, 308]
def USER_AGENT : Text := "Stigmergy/1 public-artifact-fetcher".toList
def UNAVAILABLE_MESSAGE : Text := "public URL is temporarily unavailable".toList
def BUSY_MESSAGE : Text := "public URL fetching is busy; try again shortly".toList

/-- `FetchRejected`, `FetchUnavailable`, or a `ValueError` that nothing turns into one of them -/
inductive Raised where
  | rejected (message : Text)
  | unavailable (message : Text)
  | valueError

structure ResolvedURL where
  url : Text
  scheme : Text
  hostname : Text
  port : ℕ
  ip : Text
  target : Text
  hostHeader : Text

/-- what `_request` hands to a connection pool: where the connection goes, the names the certificate must
have, and what is sent -/
structure Request where
  address : Text
  port : ℕ
  serverHostname : Option Text
  target : Text
  headers : List (Text × Text)

/-- a response; a header that is missing is empty, and in the body `none` is a transport error or the end of the
budget -/
structure Response where
  status : ℕ
  location : Text
  contentLength : Text
  contentType : Text
  body : List (Option (List UInt8))

structure FetchedArtifact where
  data : List UInt8
  finalUrl : Text
  responseMediaType : Text

/-- one request of a chain: the URL, its lookup, what was requested and answered, and the bytes kept of it -/
structure Hop where
  url : Text
  resolved : ResolvedURL
  answers : List Text
  request : Request
  response : Option Response
  kept : List UInt8

/-- what `ipaddress` says of an address -/
structure AddressFlags where
  isGlobal : Bool
  isPrivate : Bool
  isLoopback : Bool
  isLinkLocal : Bool
  isMulticast : Bool
  isReserved : Bool
  isUnspecified : Bool

/-- the standard library, the name service and the servers.  `getaddrinfo` raises `OSError` as `none`, and so does
a request that fails; both may answer differently each time. -/
structure Net where
  ipAddress : Text → Option AddressFlags
  urljoin : Text → Text → Option Text
  intOf : Text → Option ℤ
  getaddrinfo : List Hop → Text → ℕ → Option (List Text)
  respond : List Hop → Request → Option Response

section
variable (R : Runtime) (U : Urls) (N : Net)

/-- `_public_address` -/
def publicAddress (value : Text) : Bool :=
  match N.ipAddress value with
  | none => false
  | some a => a.isGlobal && !a.isPrivate && !a.isLoopback && !a.isLinkLocal && !a.isMulticast && !a.isReserved &&
      !a.isUnspecified

/-- `query` of `urlsplit` -/
def queryOf (value : Text) : Text :=
  let url := (value.dropWhile fun c => c.toNat ≤ 0x20).filter fun c => c != '\t' && c != '\r' && c != '\n'
  (partition '?' (partition '#' (splitNetloc (splitScheme R url).2).2).1).2.2

def withQuery (url query : Text) : Text := if query.isEmpty then url else url ++ '?' :: query

/-- `urlunsplit` of a path alone -/
def targetOf (path query : Text) : Text :=
  withQuery (if Text.startsWith "//".toList path then "//".toList ++ path else path) query

/-- the scheme of a request, its host, its port and its path -/
def schemeOf (s : SplitResult) : Text := R.lower s.scheme
def hostOf (s : SplitResult) : Text := R.lower ((s.hostname R).rdropWhile (· == '.'))
def defaultPort (scheme : Text) : ℕ := if scheme = "https".toList then 443 else 80
def pathOf (s : SplitResult) : Text := if s.path.isEmpty then ['/'] else s.path

/-- `parsed.port or …` -/
def portOf (scheme : Text) : Option ℕ → ℕ
  | some 0 | none => defaultPort scheme
  | some n => n

def hostHeaderOf (scheme host : Text) (port : ℕ) : Text :=
  if port = defaultPort scheme then host else host ++ ':' :: Nat.toDigits 10 port

/-- `resolve_url`, with the addresses of the lookup -/
def resolveUrl (resolver : Text → ℕ → Option (List Text)) (url : Text) : Except Raised (ResolvedURL × List Text) :=
  match urlsplit R U url with
  | .error _ => .error (.rejected "URL is invalid".toList)
  | .ok s =>
    match s.port with
    | .error _ => .error (.rejected "URL is invalid".toList)
    | .ok given =>
      let scheme := schemeOf R s
      let port := portOf scheme given
      if scheme ≠ "http".toList ∧ scheme ≠ "https".toList then
        .error (.rejected "only HTTP and HTTPS URLs are supported".toList)
      else if (s.hostname R).isEmpty || !s.userinfo.1.isEmpty || !s.userinfo.2.isEmpty then
        .error (.rejected "URL must have a public host and no embedded credentials".toList)
      else
        match resolver (hostOf R s) port with
        | none => .error (.unavailable UNAVAILABLE_MESSAGE)
        | some answers =>
          match sortedSet answers with
          | [] => .error (.rejected "URL host has no address".toList)
          | ip :: addresses =>
            if (ip :: addresses).any fun a => !publicAddress N a then
              .error (.rejected "URL resolves to a non-public address".toList)
            else .ok
              ({ url := withQuery (urlunsplit scheme s.netloc (pathOf s)) (queryOf R url)
                 scheme := scheme
                 hostname := hostOf R s
                 port := port
                 ip := ip
                 target := targetOf (pathOf s) (queryOf R url)
                 hostHeader := hostHeaderOf scheme (hostOf R s) port }, answers)

/-- `_request` -/
def requestOf (r : ResolvedURL) : Request where
  address := r.ip
  port := r.port
  serverHostname := if r.scheme = "https".toList then some r.hostname else none
  target := r.target
  headers := [("Host".toList, r.hostHeader), ("User-Agent".toList, USER_AGENT), ("Accept".toList, "*/*".toList)]

/-- the loop over the chunks of a body, and what ends it early -/
def keep (maxBytes : ℕ) : List (Option (List UInt8)) → List UInt8 → List UInt8 × Option Raised
  | [], kept => (kept, none)
  | none :: _, kept => (kept, some (.unavailable UNAVAILABLE_MESSAGE))
  | some chunk :: body, kept =>
    if maxBytes < kept.length + chunk.length then
      (kept, some (.rejected "URL response exceeds the artifact limit".toList))
    else keep maxBytes body (kept ++ chunk)

/-- what is wrong with the announced length -/
def lengthError (maxBytes : ℕ) (length : Text) : Option Raised :=
  if length.isEmpty then none
  else
    match N.intOf length with
    | none => some (.rejected "URL returned an invalid content length".toList)
    | some n => if (maxBytes : ℤ) < n then some (.rejected "URL response exceeds the artifact limit".toList) else none

/-- a response that is no redirect: the bytes kept, and the artifact -/
def readResponse (maxBytes : ℕ) (resolved : ResolvedURL) (response : Response) :
    List UInt8 × Except Raised FetchedArtifact :=
  if response.status < 200 ∨ 300 ≤ response.status then
    ([], .error (.rejected ("URL returned HTTP ".toList ++ Nat.toDigits 10 response.status)))
  else
    match lengthError N maxBytes response.contentLength with
    | some e => ([], .error e)
    | none =>
      match keep maxBytes response.body [] with
      | (kept, some e) => (kept, .error e)
      | (kept, none) =>
        match withoutCapability R U resolved.url with
        | .error _ => (kept, .error .valueError)
        | .ok finalUrl => (kept, .ok ⟨kept, finalUrl, R.lower (partition ';' response.contentType).1⟩)

/-- the loop of `_fetch` over the redirect counts, after the requests `hops` -/
def fetchFrom (maxBytes : ℕ) : List ℕ → List Hop → Text → List Hop × Except Raised FetchedArtifact
  | [], hops, _ => (hops, .error (.rejected "URL has too many redirects".toList))
  | redirectCount :: counts, hops, current =>
    match resolveUrl R U N (N.getaddrinfo hops) current with
    | .error e => (hops, .error e)
    | .ok (resolved, answers) =>
      let request := requestOf resolved
      match N.respond hops request with
      | none => (hops ++ [⟨current, resolved, answers, request, none, []⟩], .error (.unavailable UNAVAILABLE_MESSAGE))
      | some response =>
        if response.status ∈ REDIRECTS then
          let hops := hops ++ [⟨current, resolved, answers, request, some response, []⟩]
          if MAX_REDIRECTS ≤ redirectCount then (hops, .error (.rejected "URL has too many redirects".toList))
          else if response.location.isEmpty then
            (hops, .error (.rejected "URL redirect has no destination".toList))
          else
            match N.urljoin resolved.url response.location with
            | none => (hops, .error .valueError)
            | some next => fetchFrom maxBytes counts hops next
        else
          let read := readResponse R U N maxBytes resolved response
          (hops ++ [⟨current, resolved, answers, request, some response, read.1⟩], read.2)

/-- `fetch_public`: the requests made and what came of them -/
def fetchPublic (slotFree : Bool) (maxBytes : ℕ) (url : Text) : List Hop × Except Raised FetchedArtifact :=
  if slotFree then fetchFrom R U N maxBytes (List.range (MAX_REDIRECTS + 1)) [] url
  else ([], .error (.unavailable BUSY_MESSAGE))

/-! ## one URL -/

/-- a URL taken apart, without credentials, and looked up with public answers only -/
structure Resolves (resolver : Text → ℕ → Option (List Text)) (url : Text) (r : ResolvedURL) (answers : List Text) :
    Prop where
  lookup : resolver r.hostname r.port = some answers
  ip : r.ip ∈ answers
  isPublic : ∀ a ∈ answers, publicAddress N a = true
  parsed : ∃ s given, urlsplit R U url = .ok s ∧ s.port = .ok given ∧ s.userinfo = ([], []) ∧
    (schemeOf R s = "http".toList ∨ schemeOf R s = "https".toList) ∧
    r.scheme = schemeOf R s ∧ r.hostname = hostOf R s ∧ r.port = portOf (schemeOf R s) given ∧
    r.target = targetOf (pathOf s) (queryOf R url) ∧ r.hostHeader = hostHeaderOf r.scheme r.hostname r.port

variable {R U N}

theorem of_resolveUrl {resolver : Text → ℕ → Option (List Text)} {url : Text} {r : ResolvedURL} {answers : List Text}
    (h : resolveUrl R U N resolver url = .ok (r, answers)) : Resolves R U N resolver url r answers := by
  unfold resolveUrl at h
  split at h
  · exact nomatch h
  · rename_i s hs
    split at h
    · exact nomatch h
    · rename_i given hgiven
      dsimp only at h
      split at h
      · exact nomatch h
      · rename_i hscheme
        split at h
        · exact nomatch h
        · rename_i huser
          rw [Bool.not_eq_true, Bool.or_eq_false_iff, Bool.or_eq_false_iff, Bool.not_eq_false', Bool.not_eq_false',
            List.isEmpty_iff, List.isEmpty_iff] at huser
          split at h
          · exact nomatch h
          · rename_i found hfound
            split at h
            · exact nomatch h
            · rename_i ip addresses hsorted
              split at h
              · exact nomatch h
              · rename_i hpublic
                obtain ⟨rfl, rfl⟩ := Prod.mk.inj (Except.ok.inj h)
                have hmem : ∀ a, a ∈ ip :: addresses ↔ a ∈ found := by
                  intro a
                  rw [← hsorted, mem_sortedSet]
                refine ⟨hfound, (hmem ip).mp List.mem_cons_self, fun a ha => ?_, s, given, hs, hgiven, ?_, ?_, rfl,
                  rfl, rfl, rfl, rfl⟩
                · by_contra hprivate
                  refine hpublic (List.any_eq_true.mpr ⟨a, (hmem a).mpr ha, ?_⟩)
                  rw [Bool.not_eq_true']
                  exact Bool.eq_false_iff.mpr hprivate
                · exact Prod.ext huser.1.2 huser.2
                · by_contra hweb
                  exact hscheme (not_or.mp hweb)

/-! ## one response -/

theorem length_keep {maxBytes : ℕ} {body : List (Option (List UInt8))} {kept : List UInt8}
    (h : kept.length ≤ maxBytes) : (keep maxBytes body kept).1.length ≤ maxBytes := by
  induction body generalizing kept with
  | nil => exact h
  | cons chunk body ih =>
    cases chunk with
    | none => exact h
    | some chunk =>
      rw [keep]
      split
      · exact h
      · rename_i hroom
        refine ih ?_
        rw [List.length_append]
        exact Nat.le_of_not_lt hroom

/-- what reading a response comes to: nothing kept, or as much of the body as there is room for, and an artifact
only of a whole body with a status in the two hundreds -/
theorem readResponse_cases (maxBytes : ℕ) (resolved : ResolvedURL) (response : Response) :
    (∃ e, readResponse R U N maxBytes resolved response = ([], .error e)) ∨
    200 ≤ response.status ∧ response.status < 300 ∧ ∃ result,
      readResponse R U N maxBytes resolved response = ((keep maxBytes response.body []).1, result) ∧
        ∀ a, result = .ok a → a.data = (keep maxBytes response.body []).1 := by
  unfold readResponse
  split
  · exact Or.inl ⟨_, rfl⟩
  · rename_i hstatus
    obtain ⟨hlow, hhigh⟩ := not_or.mp hstatus
    split
    · exact Or.inl ⟨_, rfl⟩
    · refine Or.inr ⟨Nat.le_of_not_lt hlow, Nat.lt_of_not_le hhigh, ?_⟩
      cases hkeep : keep maxBytes response.body [] with
      | mk kept failed =>
        cases failed with
        | some e => exact ⟨_, rfl, nofun⟩
        | none =>
          dsimp only
          split
          · exact ⟨_, rfl, nofun⟩
          · refine ⟨_, rfl, fun a ha => ?_⟩
            rw [← Except.ok.inj ha]

theorem length_readResponse (maxBytes : ℕ) (resolved : ResolvedURL) (response : Response) :
    (readResponse R U N maxBytes resolved response).1.length ≤ maxBytes := by
  have hnil : ([] : List UInt8).length ≤ maxBytes := Nat.zero_le maxBytes
  rcases readResponse_cases maxBytes resolved response with ⟨e, he⟩ | ⟨-, -, result, hresult, -⟩
  · rw [he]
    exact hnil
  · rw [hresult]
    exact length_keep hnil

/-! ## a chain of requests -/

/-- what holds of a request that is made after the requests `before` -/
structure Checked (R : Runtime) (U : Urls) (N : Net) (maxBytes : ℕ) (before : List Hop) (hop : Hop) : Prop where
  resolves : Resolves R U N (N.getaddrinfo before) hop.url hop.resolved hop.answers
  request : hop.request = requestOf hop.resolved
  response : hop.response = N.respond before hop.request
  kept : hop.kept.length ≤ maxBytes

/-- the requests of a chain in order, each checked after those before it -/
def Chain (R : Runtime) (U : Urls) (N : Net) (maxBytes : ℕ) (hops : List Hop) : Prop :=
  ∀ i hop, hops[i]? = some hop → Checked R U N maxBytes (hops.take i) hop

theorem Chain.concat {maxBytes : ℕ} {hops : List Hop} (h : Chain R U N maxBytes hops) {hop : Hop}
    (hhop : Checked R U N maxBytes hops hop) : Chain R U N maxBytes (hops ++ [hop]) := by
  intro i hop' hi
  by_cases hlt : i < hops.length
  · rw [List.getElem?_append_left hlt] at hi
    rw [List.take_append_of_le_length (Nat.le_of_lt hlt)]
    exact h i hop' hi
  · have hle := Nat.le_of_not_lt hlt
    rw [List.getElem?_append_right hle, List.getElem?_singleton] at hi
    split at hi
    · rename_i hzero
      obtain rfl : i = hops.length := by omega
      rw [List.take_left, ← Option.some.inj hi]
      exact hhop
    · exact nomatch hi

/-- an artifact is what was kept of the last response, of a status in the two hundreds -/
def Final (hops : List Hop) (a : FetchedArtifact) : Prop :=
  ∃ hop response, hops.getLast? = some hop ∧ hop.response = some response ∧ 200 ≤ response.status ∧
    response.status < 300 ∧ a.data = hop.kept

/-- the rest of a fetch: the requests go on to be checked, each takes one count, and an artifact is final -/
theorem checked_fetchFrom {maxBytes : ℕ} {counts : List ℕ} {hops : List Hop} {current : Text}
    (h : Chain R U N maxBytes hops) {out : List Hop} {result : Except Raised FetchedArtifact}
    (hout : fetchFrom R U N maxBytes counts hops current = (out, result)) :
    Chain R U N maxBytes out ∧ out.length ≤ hops.length + counts.length ∧ ∀ a, result = .ok a → Final out a := by
  induction counts generalizing hops current with
  | nil =>
    obtain ⟨rfl, rfl⟩ := Prod.mk.inj hout
    exact ⟨h, Nat.le_refl _, nofun⟩
  | cons redirectCount counts ih =>
    rw [List.length_cons]
    rw [fetchFrom] at hout
    split at hout
    · obtain ⟨rfl, rfl⟩ := Prod.mk.inj hout
      exact ⟨h, Nat.le_add_right _ _, nofun⟩
    · rename_i resolved answers hresolve
      have hresolves := of_resolveUrl hresolve
      dsimp only at hout
      split at hout
      · rename_i hrespond
        obtain ⟨rfl, rfl⟩ := Prod.mk.inj hout
        refine ⟨h.concat ⟨hresolves, rfl, hrespond.symm, Nat.zero_le _⟩, ?_, nofun⟩
        rw [List.length_append, List.length_singleton]
        omega
      · rename_i response hrespond
        split at hout
        · have hchain : Chain R U N maxBytes
              (hops ++ [⟨current, resolved, answers, requestOf resolved, some response, []⟩]) :=
            h.concat ⟨hresolves, rfl, hrespond.symm, Nat.zero_le _⟩
          have hlength : (hops ++ [(⟨current, resolved, answers, requestOf resolved, some response, []⟩ : Hop)]).length =
              hops.length + 1 := by
            rw [List.length_append, List.length_singleton]
          split at hout
          · obtain ⟨rfl, rfl⟩ := Prod.mk.inj hout
            exact ⟨hchain, by omega, nofun⟩
          · split at hout
            · obtain ⟨rfl, rfl⟩ := Prod.mk.inj hout
              exact ⟨hchain, by omega, nofun⟩
            · split at hout
              · obtain ⟨rfl, rfl⟩ := Prod.mk.inj hout
                exact ⟨hchain, by omega, nofun⟩
              · obtain ⟨hrest, hcount, hfinal⟩ := ih hchain hout
                exact ⟨hrest, by omega, hfinal⟩
        · obtain ⟨rfl, rfl⟩ := Prod.mk.inj hout
          refine ⟨h.concat ⟨hresolves, rfl, hrespond.symm, length_readResponse maxBytes resolved response⟩, ?_, ?_⟩
          · rw [List.length_append, List.length_singleton]
            omega
          · intro a ha
            refine ⟨_, response, List.getLast?_concat .., rfl, ?_⟩
            rcases readResponse_cases maxBytes resolved response with ⟨e, he⟩ | ⟨hlow, hhigh, r, hr, hdata⟩
            · rw [he] at ha
              exact nomatch ha
            · rw [hr] at ha
              refine ⟨hlow, hhigh, ?_⟩
              show a.data = (readResponse R U N maxBytes resolved response).1
              rw [hr]
              exact hdata a ha

/-! ## every fetch -/

/-- **A public fetch stays public.**  Whatever the URL, the name service and the servers are: every connection goes
to an address, and a port, of the lookup made for that very request, all of whose answers are public; at most six
requests are made; of a body at most `maxBytes` are kept; a URL that is requested has no credentials, and what is
sent is its host, port, path and query; and an artifact is what was kept of the last response, whose status is in
the two hundreds. -/
theorem public_fetch (R : Runtime) (U : Urls) (N : Net) (slotFree : Bool) (maxBytes : ℕ) (url : Text) :
    (∀ i hop, (fetchPublic R U N slotFree maxBytes url).1[i]? = some hop →
      N.getaddrinfo ((fetchPublic R U N slotFree maxBytes url).1.take i) hop.resolved.hostname hop.request.port =
        some hop.answers ∧
      hop.request.address ∈ hop.answers ∧ (∀ a ∈ hop.answers, publicAddress N a = true) ∧
      (∃ s, urlsplit R U hop.url = .ok s ∧ s.userinfo = ([], []) ∧ hop.resolved.hostname = hostOf R s ∧
        hop.request.target = targetOf (pathOf s) (queryOf R hop.url) ∧
        hop.request.headers = [("Host".toList, hostHeaderOf (schemeOf R s) (hostOf R s) hop.request.port),
          ("User-Agent".toList, USER_AGENT), ("Accept".toList, "*/*".toList)]) ∧
      hop.kept.length ≤ maxBytes) ∧
    (fetchPublic R U N slotFree maxBytes url).1.length ≤ 6 ∧
    ∀ a, (fetchPublic R U N slotFree maxBytes url).2 = .ok a →
      a.data.length ≤ maxBytes ∧ Final (fetchPublic R U N slotFree maxBytes url).1 a := by
  have hall : Chain R U N maxBytes (fetchPublic R U N slotFree maxBytes url).1 ∧
      (fetchPublic R U N slotFree maxBytes url).1.length ≤ 6 ∧
      ∀ a, (fetchPublic R U N slotFree maxBytes url).2 = .ok a →
        Final (fetchPublic R U N slotFree maxBytes url).1 a := by
    unfold fetchPublic
    split
    · exact @checked_fetchFrom R U N maxBytes _ [] url nofun _ _ rfl
    · exact ⟨nofun, Nat.zero_le _, nofun⟩
  obtain ⟨hchain, hlength, hfinal⟩ := hall
  refine ⟨fun i hop hi => ?_, hlength, fun a ha => ?_⟩
  · obtain ⟨⟨hlookup, hip, hpublic, s, given, hs, -, huser, -, hscheme, hhost, -, htarget, hheader⟩, hrequest, -, hkept⟩ :=
      hchain i hop hi
    rw [hscheme, hhost] at hheader
    rw [hrequest]
    refine ⟨hlookup, hip, hpublic, ⟨s, hs, huser, hhost, htarget, ?_⟩, hkept⟩
    show [("Host".toList, hop.resolved.hostHeader), _, _] = _
    rw [hheader]
    rfl
  · have hlast := hfinal a ha
    obtain ⟨hop, response, hgetLast, -, -, -, hdata⟩ := hfinal a ha
    refine ⟨?_, hlast⟩
    obtain ⟨i, hi⟩ := List.mem_iff_getElem?.mp (List.mem_of_getLast? hgetLast)
    rw [hdata]
    exact (hchain i hop hi).kept

end

def anyUrls : Urls := ⟨fun _ => true, fun _ => true⟩

/-- a name service with one public address, and a server that sends the first request on to `/b` -/
def oneHost : Net where
  ipAddress := fun a => if a = "93.184.216.34".toList then some ⟨true, false, false, false, false, false, false⟩ else none
  urljoin := fun _ location => some ("https://files.example".toList ++ location)
  intOf := fun _ => some 2
  getaddrinfo := fun _ _ _ => some ["93.184.216.34".toList]
  respond := fun hops _ =>
    if hops.isEmpty then some ⟨302, "/b".toList, [], [], []⟩ else some ⟨200, [], ['2'], [], [some [1], some [2]]⟩

theorem public_fetch_oneHost : ∃ a, (fetchPublic ascii anyUrls oneHost true 2 "https://files.example/a".toList).2 = .ok a ∧
    a.data = [1, 2] ∧ a.data.length ≤ 2 := by
  have hrun : (match (fetchPublic ascii anyUrls oneHost true 2 "https://files.example/a".toList).2 with
      | .ok a => a.data == [1, 2]
      | .error _ => false) = true := by decide +kernel
  split at hrun
  · rename_i a ha
    exact ⟨a, ha, beq_iff_eq.mp hrun, ((public_fetch ascii anyUrls oneHost true 2 _).2.2 a ha).1⟩
  · exact nomatch hrun

end Fetch
