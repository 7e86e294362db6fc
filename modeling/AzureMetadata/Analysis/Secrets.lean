import AzureMetadata.Analysis.Download
import AzureMetadata.Model.Getpfxfile

/-!
# The token and the secret

`fetchMember_spec` composes the download, the terminator, the decoder and the lookup
into one statement about the body the server sent; `handover` says that what a context
with room for a NUL stands for is the string its caller receives.  Between them each
request does one append: `getmetadatatoken` looks at its result, `getpfxfile` does not,
and that is the difference between their two theorems.
-/

set_option autoImplicit false

namespace AzureMetadata.Analysis

open Clib AzureMetadata.Model AzureMetadata.Interface

variable {A : Allocator UInt8} {h h' : Heap UInt8} {json_decode : JsonDecoder} {curl : Curl}
  {url name body : List UInt8} {v : CString}

/-- The body is one the download accepts, and the C string it begins with decodes to an
object whose first member of that name is the string `v`. -/
def Found (json_decode : JsonDecoder) (body name : List UInt8) (v : CString) : Prop :=
  body.length ≤ bodyLimit ∧ ∃ root, json_decode (beforeNul body) = some root ∧
    jsonFindMember (some root) name = some (.JSON_STRING v)

/-- Both buffers are set up and the download into the first returns 0. -/
def TransferSucceeds (A : Allocator UInt8) (curl : Curl) (url : List UInt8) (h : Heap UInt8) :
    Prop :=
  let unset : DynstringContext := { buf := none, size := 0, pos := 0 }
  ∃ buf h₁ hdr h₂ buf' h₃, dynstringInitialise A unset 8192 h = ⟨0, buf, h₁⟩ ∧
    dynstringInitialise A unset 4096 h₁ = ⟨0, hdr, h₂⟩ ∧
    dynstringhttpAppendfromurl A curl buf url h₂ = .ok ⟨0, buf', h₃⟩

/-! ## The common first part -/

/-- The string of a member is that of a string node. -/
@[simp] theorem stringMember_eq_some {node : Option JsonNode} :
    stringMember node = some v ↔ node = some (.JSON_STRING v) := by
  unfold stringMember
  split <;> simp_all

/-- A secret is found in the text before the first NUL of the body. -/
theorem found_iff (hle : body.length ≤ bodyLimit) :
    Found json_decode body name v ↔
      stringMember (jsonFindMember (json_decode (beforeNul body)) name) = some v := by
  rw [stringMember_eq_some]
  constructor
  · rintro ⟨-, root, hroot, hfind⟩
    rw [hroot, hfind]
  · intro hfind
    cases hroot : json_decode (beforeNul body) with
    | none =>
        rw [hroot] at hfind
        cases hfind
    | some root => exact ⟨hle, root, hroot, hroot ▸ hfind⟩

/-- There is one secret at most. -/
theorem found_unique {w : CString} (hv : Found json_decode body name v)
    (hw : Found json_decode body name w) : v = w :=
  Option.some.inj (((found_iff hv.1).mp hv).symm.trans ((found_iff hv.1).mp hw))

/-- The requests the common first part makes, when each is granted: one for each buffer,
and those of the download into the first. -/
def fetchCost (curl : Curl) (url : List UInt8) : ℕ :=
  1 + 1 + downloadCost (curl.chunks url) 0 8192

/-- What the common first part leaves: two buffers that can be released, and the
member's string iff there is one, unless a request was refused. -/
structure Fetches (json_decode : JsonDecoder) (A : Allocator UInt8) (curl : Curl)
    (url name : List UInt8) (h : Heap UInt8) (f : Fetched) : Prop where
  buf : ∃ t, Represents f.heap f.buf t
  hdr : Represents f.heap f.hdr []
  apart : Heap.Apart f.buf.buf f.hdr.buf
  sound : ∀ v, f.value = some v → TransferSucceeds A curl url h ∧
    Found json_decode (curl.body url) name v ∧ f.hdr.size = 4096 ∧
    f.heap.refusals = h.refusals ∧ Heap.Costs A (fetchCost curl url) h f.heap
  complete : f.value = none →
    f.heap.refusals = h.refusals ∨ h.GrantsNext A (fetchCost curl url) →
    ∀ v, ¬ Found json_decode (curl.body url) name v

/-- Both buffers have been set up (lines 17-20 and 52-55). -/
structure Initialises (A : Allocator UInt8) (h h₁ h₂ : Heap UInt8)
    (buf hdr : DynstringContext) : Prop where
  buf_eq : dynstringInitialise A { buf := none, size := 0, pos := 0 } 8192 h = ⟨0, buf, h₁⟩
  hdr_eq : dynstringInitialise A { buf := none, size := 0, pos := 0 } 4096 h₁ = ⟨0, hdr, h₂⟩
  buf_size : buf.size = 8192
  hdr_size : hdr.size = 4096
  apart : Heap.Apart hdr.buf buf.buf
  buf_empty : Represents h₂ buf []
  hdr_empty : Represents h₂ hdr []
  costs : Heap.Costs A (1 + 1) h h₂
  refusals : h₂.refusals = h.refusals

/-- After a successful download (lines 25-28 and 60-64). -/
theorem fetches_completed (json_decode : JsonDecoder) (name : List UInt8)
    {h₁ h₂ h₃ : Heap UInt8} {buf hdr buf' : DynstringContext}
    (hi : Initialises A h h₁ h₂ buf hdr)
    (hget : dynstringhttpAppendfromurl A curl buf url h₂ = .ok ⟨0, buf', h₃⟩)
    (hdone : Completes A (curl.chunks url) h₂ buf buf' [] h₃) :
    ∃ f, fetchMember json_decode A curl url name h = .ok f ∧
      Fetches json_decode A curl url name h f := by
  have hc := hdone.continues
  have hle := hdone.length_le
  have hcosts := hdone.costs
  have hpos : buf.pos = 0 := hi.buf_empty.pos_eq
  rw [List.nil_append, ← Curl.body] at hc hle
  rw [hpos, hi.buf_size] at hcosts
  have hroom : buf.pos < buf.size := by
    rw [hpos, hi.buf_size]
    decide
  obtain ⟨b, h₄, hb, he, hs, hterm, hreq⟩ := getcstring_room (A := A) hc.represents (hc.room hroom)
  have hstr : h₄.cString buf'.buf = some (beforeNul (curl.body url)) := by
    rw [hb]
    exact cString_of_terminated hterm
  have hev := hc.evolves.trans hs.evolves
  refine ⟨⟨buf', hdr, stringMember (jsonFindMember (json_decode (beforeNul (curl.body url))) name),
    h₄⟩, ?_, ⟨_, hs.represents⟩, represents_frame hi.hdr_empty hev hi.apart,
    (represents_apart hi.hdr_empty hev hi.apart).symm,
    fun v hv => ⟨?_, ?_, hi.hdr_size, ?_, ?_⟩, ?_⟩
  · simp [fetchMember, hi.buf_eq, hi.hdr_eq, hget, he, hstr]
  · exact ⟨_, _, _, _, _, _, hi.buf_eq, hi.hdr_eq, hget⟩
  · exact (found_iff hle).mpr hv
  · show h₄.refusals = h.refusals
    rw [hs.refusals, hdone.refusals, hi.refusals]
  · exact (hi.costs.trans hcosts).trans (Heap.costs_zero hreq)
  · intro hv _ v hfound
    rw [found_iff hle] at hfound
    rw [hfound] at hv
    cases hv

/-- After a download that was stopped: the limit was passed, or a request was refused. -/
theorem fetches_stopped (json_decode : JsonDecoder) (name : List UInt8)
    {h₁ h₂ h₃ : Heap UInt8} {buf hdr buf' : DynstringContext} {k : ℕ}
    (hi : Initialises A h h₁ h₂ buf hdr)
    (hget : dynstringhttpAppendfromurl A curl buf url h₂ = .ok ⟨-1, buf', h₃⟩)
    (hstop : Stops A (curl.chunks url) h₂ buf buf' [] h₃ k) :
    ∃ f, fetchMember json_decode A curl url name h = .ok f ∧
      Fetches json_decode A curl url name h f := by
  have hc := hstop.continues
  have hpos : buf.pos = 0 := hi.buf_empty.pos_eq
  refine ⟨⟨buf', hdr, none, h₃⟩, by simp [fetchMember, hi.buf_eq, hi.hdr_eq, hget],
    ⟨_, hc.represents⟩, represents_frame hi.hdr_empty hc.evolves hi.apart,
    (represents_apart hi.hdr_empty hc.evolves hi.apart).symm, by simp, ?_⟩
  intro _ hgo v hfound
  have hfits := hfound.1
  cases hstop.cause with
  | inl hover =>
      rw [List.nil_append, ← Curl.body] at hover
      omega
  | inr hrefused =>
      have hcounted := hrefused.counted
      have href₂ := hi.refusals
      cases hgo with
      | inl href =>
          simp only at href
          omega
      | inr hnext =>
          apply hrefused.not_granted
          · rw [← Curl.body, hi.buf_size]
            unfold bodyLimit at hfits
            unfold ptrdiffMax
            omega
          · rw [hpos, hi.buf_size]
            exact hnext.rest hi.costs.requests

/-- The common first part, for every body, chunking and allocator. -/
theorem fetchMember_spec (json_decode : JsonDecoder) (A : Allocator UInt8) (curl : Curl)
    (url name : List UInt8) (h : Heap UInt8) :
    ∃ f, fetchMember json_decode A curl url name h = .ok f ∧
      Fetches json_decode A curl url name h f := by
  have hmore : ∀ h : Heap UInt8, h.refuse.refusals ≠ h.refusals := fun h => Nat.succ_ne_self _
  have hmax : 8192 ≤ ptrdiffMax := by
    unfold ptrdiffMax
    omega
  rcases initialise_spec A { buf := none, size := 0, pos := 0 } 8192 h with
    ⟨b, h₁, hbuf, hr₁, hev₁, hcost₁, href₁⟩ | ⟨hbuf, hg⟩
  swap
  · refine ⟨_, by simp [fetchMember, hbuf]; rfl, ⟨[], represents_null _⟩, represents_null _,
      by simp, by simp, ?_⟩
    rintro - (href | hnext)
    · exact absurd href (hmore h)
    · exact absurd hnext (Heap.not_grantsNext hg hmax (by unfold fetchCost; omega))
  rcases initialise_spec A { buf := none, size := 0, pos := 0 } 4096 h₁ with
    ⟨c, h₂, hhdr, hr₂, hev₂, hcost₂, href₂⟩ | ⟨hhdr, hg⟩
  swap
  · refine ⟨_, by simp [fetchMember, hbuf, hhdr]; rfl, ⟨[], represents_refuse hr₁⟩,
      represents_null _, by simp, by simp, ?_⟩
    rintro - (href | hnext)
    · exact absurd (href.trans href₁.symm) (hmore h₁)
    · rw [fetchCost, Nat.add_assoc] at hnext
      exact absurd (hnext.rest hcost₁.requests) (Heap.not_grantsNext hg (by omega) (by omega))
  have hi : Initialises A h h₁ h₂ { buf := some b, size := 8192, pos := 0 }
      { buf := some c, size := 4096, pos := 0 } :=
    ⟨hbuf, hhdr, rfl, rfl, (represents_apart hr₁ hev₂ (Heap.apart_none_right _)).symm,
      represents_frame hr₁ hev₂ (Heap.apart_none_right _), hr₂, hcost₁.trans hcost₂,
      href₂.trans href₁⟩
  rcases appendfromurl_spec (A := A) curl url hi.buf_empty with
    ⟨buf', h₃, hget, hdone⟩ | ⟨buf', h₃, k, hget, hstop⟩
  · exact fetches_completed json_decode name hi hget hdone
  · exact fetches_stopped json_decode name hi hget hstop

/-! ## The common last part -/

/-- `finish` releases both buffers and returns its argument; a string in another block
is still there. -/
theorem finish_spec {buf hdr : DynstringContext} {t u : List UInt8} (hbuf : Represents h buf t)
    (hhdr : Represents h hdr u) (hap : Heap.Apart buf.buf hdr.buf) (p : Ptr) :
    ∃ h', finish buf hdr p h = .ok (p, h') ∧ h'.refusals = h.refusals ∧
      ∀ b s, Terminated h b s → Heap.Apart (some b) buf.buf → Heap.Apart (some b) hdr.buf →
        Terminated h' b s := by
  obtain ⟨h₁, he₁, hs₁⟩ := free_spec hhdr
  obtain ⟨h₂, he₂, hs₂⟩ := free_spec (represents_frame hbuf hs₁.evolves hap)
  refine ⟨h₂, by simp [finish, he₁, he₂], hs₂.refusals.trans hs₁.refusals, ?_⟩
  intro b s hterm hb hh
  exact terminated_frame (terminated_frame hterm hs₁.evolves hh) hs₂.evolves hb

/-- What `hdr` has come to stand for is the string the caller receives. -/
theorem handover {buf hdr hdr' : DynstringContext} {t u : List UInt8}
    (hbuf : Represents h buf u) (hap : Heap.Apart buf.buf hdr.buf)
    (hev : Heap.Evolves hdr.buf hdr'.buf h h') (hr : Represents h' hdr' t)
    (hroom : hdr'.pos < hdr'.size) :
    ∃ b h'', (dynstringDetachcstring A hdr' h' >>= fun d => finish buf d.ctx d.out d.heap) =
        .ok (some b, h'') ∧ h''.cString (some b) = some (beforeNul t) := by
  have hbuf' := represents_frame hbuf hev hap
  have hap' := represents_apart hbuf hev hap
  obtain ⟨b, h₁, hd, hterm, hev₁⟩ := detachcstring_room (A := A) hr hroom
  have hb : Heap.Apart (some b) buf.buf := (represents_apart hbuf' hev₁ hap').symm
  obtain ⟨h₂, hf, -, hkeep⟩ := finish_spec (represents_frame hbuf' hev₁ hap')
    (represents_null h₁) (Heap.apart_none_right _) (some b)
  refine ⟨b, h₂, by simp [hd, hf], ?_⟩
  exact cString_of_terminated (hkeep b t hterm hb (Heap.apart_none_right _))

/-! ## `getmetadatatoken` -/

/-- The curl handle with the header `getmetadatatoken` sets (line 22). -/
def tokenRequest (curl : Curl) : Curl := { curl with httpheader := [ascii "Metadata: true"] }

/-- The requests of `getmetadatatoken` before it hands the header over: those of the common
first part, and one for each of the two strings of the header. -/
def headerCost (curl : Curl) : ℕ := fetchCost (tokenRequest curl) metadataUrl + 2

/-- `json_decode` makes no string that is longer than its text. -/
def DecodesShort (json_decode : JsonDecoder) : Prop :=
  ∀ text root name v, json_decode text = some root →
    jsonFindMember (some root) name = some (.JSON_STRING v) → v.bytes.length ≤ text.length

/-- A string found in a document that the download accepts is short. -/
theorem found_short (hshort : DecodesShort json_decode) (hfound : Found json_decode body name v) :
    v.bytes.length ≤ bodyLimit := by
  obtain ⟨hle, root, hroot, hfind⟩ := hfound
  have htext : (beforeNul body).length ≤ body.length := (List.takeWhile_sublist _).length_le
  exact (hshort _ _ _ _ hroot hfind).trans (htext.trans hle)

/-- The strings of the header together are not too large for a buffer of 4096 bytes. -/
theorem header_le (hv : v.bytes.length ≤ bodyLimit) :
    4096 + ([bearer, v].flatMap CString.bytes).length ≤ ptrdiffMax := by
  have hbearer : bearer.bytes.length = 22 := rfl
  simp only [List.flatMap_cons, List.flatMap_nil, List.append_nil, List.length_append, hbearer]
  unfold bodyLimit at hv
  unfold ptrdiffMax
  omega

/-- What `getmetadatatoken` returns: the header with the token the body holds, or `NULL`
because the body holds none, or because a request was refused that the allocator did not
grant. -/
theorem getmetadatatoken_spec (json_decode : JsonDecoder) (A : Allocator UInt8) (curl : Curl)
    (junk : ℤ) (h : Heap UInt8) :
    ∃ p h', getmetadatatoken json_decode A curl junk h = .ok (p, h') ∧
      (p = none ∧ (h'.refusals = h.refusals ∨
          DecodesShort json_decode ∧ h.GrantsNext A (headerCost curl) → ∀ v,
            ¬ Found json_decode ((tokenRequest curl).body metadataUrl) (ascii "access_token") v) ∨
        ∃ b v, p = some b ∧
          Found json_decode ((tokenRequest curl).body metadataUrl) (ascii "access_token") v ∧
          h'.cString p = some (bearer.bytes ++ v.bytes)) := by
  obtain ⟨f, hf, hF⟩ := fetchMember_spec json_decode A (tokenRequest curl) metadataUrl
    (ascii "access_token") h
  obtain ⟨t, hbuf⟩ := hF.buf
  rw [tokenRequest] at hf
  cases hv : f.value with
  | none =>
      obtain ⟨h', he, href, -⟩ := finish_spec hbuf hF.hdr hF.apart none
      refine ⟨none, h', by simp [getmetadatatoken, hf, hv, he], .inl ⟨rfl, fun hgo v hfound => ?_⟩⟩
      refine hF.complete hv ?_ v hfound
      rw [← href]
      exact hgo.imp_right fun hgranted => hgranted.2.mono (Nat.le_add_right _ 2)
  | some v =>
      obtain ⟨-, hfound, hsize, hsame, hcosts⟩ := hF.sound v hv
      rcases appendstringzVa_spec (A := A) [bearer, v] junk hF.hdr with
        ⟨hdr', h₁, ha, hs, hroom⟩ | ⟨hdr', h₁, k, -, ha, hs, hnot⟩
      · have hlt : f.hdr.pos < f.hdr.size := by
          rw [hF.hdr.pos_eq, hsize]
          decide
        obtain ⟨b, h', he, hstr⟩ := handover (A := A) hbuf hF.apart hs.evolves hs.represents
          (hroom hlt)
        have hnul : (0 : UInt8) ∉ bearer.bytes ++ v.bytes := by
          rw [List.mem_append]
          exact not_or.mpr ⟨bearer.noNul, v.noNul⟩
        have hflat : ([] : List UInt8) ++ [bearer, v].flatMap CString.bytes =
            bearer.bytes ++ v.bytes := by
          simp
        rw [hflat, beforeNul_eq_self hnul] at hstr
        refine ⟨some b, h', ?_, .inr ⟨b, v, rfl, hfound, hstr⟩⟩
        simp only [getmetadatatoken, hf, ok_bind, hv, dynstringAppendstringz, ha]
        exact he
      · -- The append of the header is refused: that request was not granted.
        have hbuf' := represents_frame hbuf hs.evolves hF.apart
        obtain ⟨h', he, href, -⟩ := finish_spec (represents_refuse hbuf')
          (represents_refuse hs.represents) (represents_apart hbuf hs.evolves hF.apart) none
        refine ⟨none, h', ?_, .inl ⟨rfl, ?_⟩⟩
        · simp only [getmetadatatoken, hf, ok_bind, hv, dynstringAppendstringz, ha]
          exact he
        · have href₁ := hs.refusals
          have hrefuse : h₁.refuse.refusals = h₁.refusals + 1 := rfl
          rintro (hno | ⟨hshort, hnext⟩) - -
          · omega
          · rw [hsize] at hnot
            exact hnot (header_le (found_short hshort hfound)) (hnext.rest hcosts.requests)

/-- **The authorization header.**  `getmetadatatoken` returns for every body, chunking
and allocator.  If it returns a string, that is the header with the token the body
holds; and it returns one exactly when the body holds a token, if no allocation fails.
None does when the allocator grants the requests, since the strings are short. -/
theorem getmetadatatoken_header (json_decode : JsonDecoder) (A : Allocator UInt8) (curl : Curl)
    (junk : ℤ) (h : Heap UInt8) :
    let body := (tokenRequest curl).body metadataUrl
    ∃ p h', getmetadatatoken json_decode A curl junk h = .ok (p, h') ∧
      (p ≠ none → ∃ v, Found json_decode body (ascii "access_token") v ∧
        h'.cString p = some (ascii "Authorization: Bearer " ++ v.bytes)) ∧
      (h'.refusals = h.refusals ∨
          DecodesShort json_decode ∧ h.GrantsNext A (headerCost curl) →
        (p ≠ none ↔ ∃ v, Found json_decode body (ascii "access_token") v)) := by
  intro body
  obtain ⟨p, h', he, hout⟩ := getmetadatatoken_spec json_decode A curl junk h
  refine ⟨p, h', he, ?_⟩
  rcases hout with ⟨hnone, hmissing⟩ | ⟨b, v, hb, hfound, hstr⟩
  · refine ⟨fun hne => absurd hnone hne, fun hgo => ?_⟩
    refine iff_of_false (not_not_intro hnone) ?_
    rintro ⟨v, hfound⟩
    exact hmissing hgo v hfound
  · refine ⟨fun _ => ⟨v, hfound, hstr⟩, fun _ => iff_of_true ?_ ⟨v, hfound⟩⟩
    rw [hb]
    exact Option.some_ne_none b

/-! A server with a document for each request, told apart by the number of headers. -/

/-- The document of the first request. -/
def tokenText : CBytes := ⟨ascii "\x7b\"access_token\":\"t\"\x7d", by decide⟩

/-- The document of the second request. -/
def secretText : CBytes := ⟨ascii "\x7b\"value\":\"s\"\x7d", by decide⟩

def documentsCurl : Curl where
  httpheader := []
  server := fun httpheader _ => if httpheader.length = 1 then [tokenText] else [secretText]

/-- The token, and the secret. -/
def shortToken : CString := ⟨ascii "t", by decide, by decide⟩

def shortSecret : CString := ⟨ascii "s", by decide, by decide⟩

/-- What a JSON parser makes of the two documents. -/
def documentsDecode : JsonDecoder := fun text =>
  if text = tokenText.bytes then
    some (.JSON_OBJECT [(⟨ascii "access_token", by decide, by decide⟩, .JSON_STRING shortToken)])
  else if text = secretText.bytes then
    some (.JSON_OBJECT [(⟨ascii "value", by decide, by decide⟩, .JSON_STRING shortSecret)])
  else none

/-- The member of an object of one string. -/
theorem findMember_single {key w : CString}
    (hfind : jsonFindMember (some (.JSON_OBJECT [(key, .JSON_STRING w)])) name =
      some (.JSON_STRING v)) : v = w := by
  rw [jsonFindMember, List.find?_cons] at hfind
  split at hfind
  · simp only [Option.map_some, Option.some.injEq, JsonNode.JSON_STRING.injEq] at hfind
    exact hfind.symm
  · cases hfind

/-- No string of the two documents is longer than its text. -/
theorem documentsDecode_short : DecodesShort documentsDecode := by
  intro text root name v hroot hfind
  unfold documentsDecode at hroot
  split at hroot
  · next htext =>
    cases hroot
    rw [findMember_single hfind, htext]
    decide
  · split at hroot
    · next htext =>
      cases hroot
      rw [findMember_single hfind, htext]
      decide
    · cases hroot

/-- The token is found in the first document. -/
theorem token_found : Found documentsDecode ((tokenRequest documentsCurl).body metadataUrl)
    (ascii "access_token") shortToken := by
  have hbody : (tokenRequest documentsCurl).body metadataUrl = tokenText.bytes := rfl
  have hnul : (0 : UInt8) ∉ tokenText.bytes := by decide
  have hle : tokenText.bytes.length ≤ bodyLimit := by decide
  rw [hbody, found_iff hle, beforeNul_eq_self hnul, documentsDecode, if_pos rfl,
    stringMember_eq_some]
  rfl

/-- With an allocator that grants everything the header arrives. -/
theorem getmetadatatoken_header_short :
    ∃ p h', getmetadatatoken documentsDecode (generous true 7) documentsCurl 0 Heap.empty =
        .ok (p, h') ∧
      p ≠ none ∧ h'.cString p = some (ascii "Authorization: Bearer t") := by
  obtain ⟨p, h', he, hheader, hiff⟩ :=
    getmetadatatoken_header documentsDecode (generous true 7) documentsCurl 0 Heap.empty
  have hgo := hiff (Or.inr ⟨documentsDecode_short, Heap.grantsNext_generous _ _ _ _⟩)
  have hne : p ≠ none := hgo.mpr ⟨shortToken, token_found⟩
  obtain ⟨v, hfound, hstr⟩ := hheader hne
  rw [found_unique hfound token_found] at hstr
  exact ⟨p, h', he, hne, hstr⟩

/-! ## `getpfxfile` -/

/-- The curl handle with the headers `getpfxfile` sets (lines 57-59). -/
def secretRequest (curl : Curl) (auth_header : List UInt8) : Curl :=
  { curl with httpheader := [auth_header, ascii "Accept: application/json"] }

/-- The pointer is the string the first `value` member of the body holds, received by a
transfer that succeeded. -/
def ExactSecret (json_decode : JsonDecoder) (A : Allocator UInt8) (curl : Curl)
    (h : Heap UInt8) (p : Ptr) (h' : Heap UInt8) : Prop :=
  TransferSucceeds A curl secretUrl h ∧
  ∃ v, Found json_decode (curl.body secretUrl) (ascii "value") v ∧ h'.cString p = some v.bytes

/-- To append one string is to append its bytes. -/
theorem appendstringz_single (A : Allocator UInt8) (junk : ℤ) (ctx : DynstringContext)
    (v : CString) (h : Heap UInt8) :
    dynstringAppendstringz A junk ctx [v] h = dynstringAppendstring A ctx v.bytes h := by
  unfold dynstringAppendstringz dynstringAppendstringzVa
  cases dynstringAppendstring A ctx v.bytes h with
  | error e => rfl
  | ok r =>
      simp only [ok_bind, dynstringAppendstringzVa, pure_eq_ok, ite_self]

/-- The append on line 65 is refused: the caller receives the empty string. -/
theorem getpfxfile_refused (junk : ℤ) {auth_header : List UInt8} {f : Fetched}
    (hf : fetchMember json_decode A (secretRequest curl auth_header) secretUrl (ascii "value") h =
      .ok f)
    (hF : Fetches json_decode A (secretRequest curl auth_header) secretUrl (ascii "value") h f)
    (hv : f.value = some v) (hlen : 4096 ≤ v.bytes.length)
    (hg : f.heap.grants A (4096 + v.bytes.length) = false) :
    ∃ b h', getpfxfile json_decode A curl auth_header junk h = .ok (some b, h') ∧
      h'.cString (some b) = some [] := by
  obtain ⟨t, hbuf⟩ := hF.buf
  obtain ⟨-, -, hsize, -⟩ := hF.sound v hv
  have hpos : f.hdr.pos = 0 := hF.hdr.pos_eq
  have hne : v.bytes ≠ [] := List.ne_nil_of_length_pos (by omega)
  have ha := appendstring_refused hF.hdr hne v.length_lt.le (by omega) (by rw [hsize]; exact hg)
  obtain ⟨b, h', he, hstr⟩ := handover (A := A) hbuf hF.apart (Heap.evolves_refuse _ _)
    (represents_refuse hF.hdr) (by omega)
  refine ⟨b, h', ?_, hstr⟩
  rw [secretRequest] at hf
  simp only [getpfxfile, hf, ok_bind, hv, appendstringz_single, ha]
  exact he

/-- The append on line 65 is not refused: what the caller receives is the secret. -/
theorem getpfxfile_appended {junk : ℤ} {auth_header : List UInt8} {f : Fetched} {b : ℕ}
    (hf : fetchMember json_decode A (secretRequest curl auth_header) secretUrl (ascii "value") h =
      .ok f)
    (hF : Fetches json_decode A (secretRequest curl auth_header) secretUrl (ascii "value") h f)
    (hv : f.value = some v)
    (hg : v.bytes.length < 4096 ∨ f.heap.grants A (4096 + v.bytes.length) = true)
    (he : getpfxfile json_decode A curl auth_header junk h = .ok (some b, h')) :
    h'.cString (some b) = some v.bytes := by
  obtain ⟨t, hbuf⟩ := hF.buf
  obtain ⟨-, -, hsize, -⟩ := hF.sound v hv
  have hpos : f.hdr.pos = 0 := hF.hdr.pos_eq
  rw [secretRequest] at hf
  rcases appendstring_spec (A := A) hF.hdr v.length_lt.le with
    ⟨hdr', h₁, ha, hs, hsize', -⟩ | ⟨-, -, hfull, hno⟩
  · have hroom := room_of_append hF.hdr hs.represents hsize' (by omega)
    obtain ⟨b', h₂, he', hstr⟩ := handover (A := A) hbuf hF.apart hs.evolves hs.represents hroom
    simp only [getpfxfile, hf, ok_bind, hv, appendstringz_single, ha] at he
    rw [he'] at he
    cases he
    rw [hstr, List.nil_append, beforeNul_eq_self v.noNul]
  · cases hg with
    | inl hlt => omega
    | inr hyes =>
        rw [hsize, hyes] at hno
        cases hno

/-- **The secret.**  Every string `getpfxfile` returns is the exact secret iff the one
request it makes without looking at the outcome cannot be the first that is refused: when
the body holds a member string that does not fit in the 4096 bytes of `hdr`, and all the
requests before that append are granted, then so is the one it makes. -/
theorem getpfxfile_exact_iff (json_decode : JsonDecoder) (A : Allocator UInt8) (curl : Curl)
    (auth_header : List UInt8) (junk : ℤ) (h : Heap UInt8) :
    (∀ b h', getpfxfile json_decode A curl auth_header junk h = .ok (some b, h') →
      ExactSecret json_decode A (secretRequest curl auth_header) h (some b) h') ↔
    ∀ v, Found json_decode ((secretRequest curl auth_header).body secretUrl) (ascii "value") v →
      4096 ≤ v.bytes.length →
      h.GrantsNext A (fetchCost (secretRequest curl auth_header) secretUrl) →
      (A (h.requests + fetchCost (secretRequest curl auth_header) secretUrl)).granted = true ∧
        4096 + v.bytes.length ≤ ptrdiffMax := by
  obtain ⟨f, hf, hF⟩ := fetchMember_spec json_decode A (secretRequest curl auth_header)
    secretUrl (ascii "value") h
  -- The request of the append, as an answer of the allocator to the whole run.
  have hgrants : ∀ v, f.value = some v → (f.heap.grants A (4096 + v.bytes.length) = true ↔
      (A (h.requests + fetchCost (secretRequest curl auth_header) secretUrl)).granted = true ∧
        4096 + v.bytes.length ≤ ptrdiffMax) := by
    intro v hv
    obtain ⟨-, -, -, -, hcost⟩ := hF.sound v hv
    rw [Heap.grants, hcost.requests, Bool.and_eq_true, decide_eq_true_eq]
  constructor
  · intro hexact v hfound hlen hnext
    cases hv : f.value with
    | none => exact absurd hfound (hF.complete hv (Or.inr hnext) v)
    | some w =>
        obtain ⟨-, hfound', -⟩ := hF.sound w hv
        have hsame : w = v := found_unique hfound' hfound
        rw [hsame] at hv
        rw [← hgrants v hv]
        by_contra hrefused
        obtain ⟨b, h', he, hstr⟩ := getpfxfile_refused junk hf hF hv hlen (by simpa using hrefused)
        obtain ⟨-, u, hfound'', hstr'⟩ := hexact b h' he
        rw [hstr, found_unique hfound'' hfound, Option.some.injEq] at hstr'
        rw [← hstr', List.length_nil] at hlen
        omega
  · intro hcond b h' he
    cases hv : f.value with
    | none =>
        obtain ⟨t, hbuf⟩ := hF.buf
        obtain ⟨h₁, hfin, -⟩ := finish_spec hbuf hF.hdr hF.apart none
        rw [secretRequest] at hf
        simp only [getpfxfile, hf, ok_bind, hv, hfin] at he
        cases he
    | some v =>
        obtain ⟨htransfer, hfound, -, -, hcost⟩ := hF.sound v hv
        refine ⟨htransfer, v, hfound, getpfxfile_appended hf hF hv ?_ he⟩
        cases Nat.lt_or_ge v.bytes.length 4096 with
        | inl hlt => exact Or.inl hlt
        | inr hlen => exact Or.inr ((hgrants v hv).mpr (hcond v hfound hlen hcost.granted))

/-! The request that is refused: a body with a secret of 4096 bytes, and an allocator
that refuses the third request only. -/

/-- `n` letters `A`. -/
def letters (n : ℕ) (hn : n < ptrdiffMax) : CString where
  bytes := List.replicate n 65
  noNul := fun h => absurd (List.eq_of_mem_replicate h) (by decide)
  length_lt := by simpa using hn

def longSecret : CString := letters 4096 (by decide)

def longBody : List UInt8 := ascii "\x7b\"value\":\"" ++ longSecret.bytes ++ ascii "\"\x7d"

/-- What a JSON parser makes of that body. -/
def longDecode : JsonDecoder := fun text =>
  if text = longBody then
    some (.JSON_OBJECT [(⟨ascii "value", by decide, by decide⟩, .JSON_STRING longSecret)])
  else none

/-- The braces, the name and the quotes are twelve bytes more. -/
theorem length_longBody : longBody.length = 4108 := by
  simp only [longBody, longSecret, letters, List.length_append, List.length_replicate]
  rfl

def longCurl : Curl where
  httpheader := []
  server := fun _ _ => [⟨longBody, by rw [length_longBody]; decide⟩]

/-- The allocator that refuses its third request. -/
def refusingThird : Allocator UInt8 := fun k => ⟨k ≠ 2, true, fun _ => 7⟩

/-- The long secret is found in it. -/
theorem long_found : Found longDecode longBody (ascii "value") longSecret := by
  have hnul : (0 : UInt8) ∉ longBody := by
    simp only [longBody, List.mem_append, not_or]
    exact ⟨⟨by decide, longSecret.noNul⟩, by decide⟩
  have hle : longBody.length ≤ bodyLimit := by
    rw [length_longBody]
    decide
  rw [found_iff hle, beforeNul_eq_self hnul, longDecode, if_pos rfl, stringMember_eq_some]
  rfl

/-- The header `getmetadatatoken` makes of the token `t`. -/
def shortHeader : List UInt8 := ascii "Authorization: Bearer t"

/-- A refused append makes `getpfxfile` return the empty string. -/
theorem getpfxfile_returns_empty : ∃ b h',
    getpfxfile longDecode refusingThird longCurl shortHeader 0 Heap.empty = .ok (some b, h') ∧
    h'.cString (some b) = some [] ∧
    ¬ ExactSecret longDecode refusingThird (secretRequest longCurl shortHeader) Heap.empty (some b)
      h' := by
  have hbody : (secretRequest longCurl shortHeader).body secretUrl = longBody := by
    simp [secretRequest, Curl.body, Curl.chunks, longCurl]
  have hlen : longSecret.bytes.length = 4096 := List.length_replicate
  -- The body fits in the buffer of 8192 bytes, so the first two requests are those for the buffers.
  have hcost : fetchCost (secretRequest longCurl shortHeader) secretUrl = 2 := by
    simp [fetchCost, secretRequest, Curl.chunks, longCurl, downloadCost, appendCost,
      length_longBody]
  have hnext : Heap.GrantsNext refusingThird 2 (Heap.empty : Heap UInt8) := by
    intro i hi
    have hne : i ≠ 2 := by omega
    simp [refusingThird, Heap.empty, hne]
  obtain ⟨f, hf, hF⟩ := fetchMember_spec longDecode refusingThird
    (secretRequest longCurl shortHeader) secretUrl (ascii "value") Heap.empty
  have hv : f.value = some longSecret := by
    cases hv : f.value with
    | none =>
        have hno := hF.complete hv (Or.inr (by rw [hcost]; exact hnext)) longSecret
        rw [hbody] at hno
        exact absurd long_found hno
    | some v =>
        obtain ⟨-, hfound, -⟩ := hF.sound v hv
        rw [hbody] at hfound
        rw [found_unique hfound long_found]
  obtain ⟨-, -, -, -, hcosts⟩ := hF.sound longSecret hv
  have hg : f.heap.grants refusingThird (4096 + longSecret.bytes.length) = false := by
    rw [Heap.grants, hcosts.requests, hcost]
    rfl
  obtain ⟨b, h', he, hstr⟩ := getpfxfile_refused 0 hf hF hv hlen.ge hg
  refine ⟨b, h', he, hstr, ?_⟩
  rintro ⟨-, v, hfound, hexact⟩
  rw [hbody] at hfound
  rw [found_unique hfound long_found, hstr, Option.some.injEq] at hexact
  rw [← hexact, List.length_nil] at hlen
  omega

end AzureMetadata.Analysis
