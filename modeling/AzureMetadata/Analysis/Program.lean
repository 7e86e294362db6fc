import AzureMetadata.Analysis.JsonDecoding
import AzureMetadata.Analysis.ProgramOwnership
import AzureMetadata.Analysis.Secrets

/-!
# What the program prints

The two requests one after the other: the second is made with the token that the first
found, and the program prints what it finds.  `getpfxfileMain_run` is for every server,
every allocator and every decoder, and `found_iff_holds` is about the one of `json.c`.
-/

set_option autoImplicit false

namespace AzureMetadata.Analysis

open Clib Clib.Heap AzureMetadata.Model AzureMetadata.Interface

variable {A : Allocator UInt8} {h h' : Heap UInt8} {json_decode : JsonDecoder} {curl : Curl}
  {junk junk' : ℤ}

/-! ## The two requests -/

section Requests

/-- The document of the first request. -/
def tokenBody (curl : Curl) : List UInt8 := (tokenRequest curl).body metadataUrl

/-- The document of the second request, made with that header. -/
def secretBody (curl : Curl) (auth_header : List UInt8) : List UInt8 :=
  (secretRequest curl auth_header).body secretUrl

/-- There is memory for everything: the allocator grants each request that is not too large,
and the decoder makes no string that would need a large one. -/
def Plenty (json_decode : JsonDecoder) (A : Allocator UInt8) : Prop :=
  (∀ k, (A k).granted = true) ∧ DecodesShort json_decode

/-- An allocator with plenty grants any number of requests. -/
theorem Plenty.grantsNext (hp : Plenty json_decode A) (k : ℕ) (h : Heap UInt8) :
    h.GrantsNext A k := fun _ _ => hp.1 _

/-- What a request leaves that looks for `name` in `body`. -/
def Requested (json_decode : JsonDecoder) (A : Allocator UInt8) (body name : List UInt8)
    (h : Heap UInt8) (Passed : CString → List UInt8 → Heap UInt8 → Prop)
    (r : Ptr × Heap UInt8) : Prop :=
  Conserves [] [r.1] h r.2 ∧
    (r.1 = none ∧ (r.2.refusals = h.refusals ∨ Plenty json_decode A →
        ∀ v, ¬ Found json_decode body name v) ∨
      ∃ b v s, r.1 = some b ∧ Found json_decode body name v ∧ r.2.cString r.1 = some s ∧
        Passed v s r.2)

/-- The first request. -/
theorem getmetadatatoken_requested (json_decode : JsonDecoder) (A : Allocator UInt8)
    (curl : Curl) (junk : ℤ) (h : Heap UInt8) :
    ∃ r, getmetadatatoken json_decode A curl junk h = .ok r ∧
      Requested json_decode A (tokenBody curl) (ascii "access_token") h
        (fun v s _ => s = bearer.bytes ++ v.bytes) r := by
  obtain ⟨p, h', hrun, hout⟩ := getmetadatatoken_spec json_decode A curl junk h
  have howned := getmetadatatoken_owned json_decode A curl junk h
  refine ⟨_, hrun, howned.of_ok hrun, ?_⟩
  rcases hout with ⟨hnone, hmissing⟩ | ⟨b, v, hb, hfound, hstr⟩
  · refine .inl ⟨hnone, fun hgo => hmissing ?_⟩
    exact hgo.imp_right fun hp => ⟨hp.2, hp.grantsNext _ _⟩
  · exact .inr ⟨b, v, _, hb, hfound, hstr, rfl⟩

/-- What is returned for a secret: the secret, or nothing of it if a request was refused,
for which there must be a reason. -/
def PassedSecret (json_decode : JsonDecoder) (A : Allocator UInt8) (h : Heap UInt8) (v : CString)
    (s : List UInt8) (h' : Heap UInt8) : Prop :=
  s = v.bytes ∨ s = [] ∧ h'.refusals ≠ h.refusals ∧ ¬ Plenty json_decode A

/-- The second request. -/
theorem getpfxfile_requested (json_decode : JsonDecoder) (A : Allocator UInt8) (curl : Curl)
    (auth_header : List UInt8) (junk : ℤ) (h : Heap UInt8) :
    ∃ r, getpfxfile json_decode A curl auth_header junk h = .ok r ∧
      Requested json_decode A (secretBody curl auth_header) (ascii "value") h
        (PassedSecret json_decode A h) r := by
  obtain ⟨f, hf, hF⟩ := fetchMember_spec json_decode A (secretRequest curl auth_header)
    secretUrl (ascii "value") h
  obtain ⟨t, hbuf⟩ := hF.buf
  have howned := getpfxfile_owned json_decode A curl auth_header junk h
  rw [secretRequest] at hf
  cases hv : f.value with
  | none =>
      obtain ⟨h', he, href, -⟩ := finish_spec hbuf hF.hdr hF.apart none
      have hrun : getpfxfile json_decode A curl auth_header junk h = .ok (none, h') := by
        simp [getpfxfile, hf, hv, he]
      refine ⟨_, hrun, howned.of_ok hrun, .inl ⟨rfl, fun hgo v hfound => ?_⟩⟩
      refine hF.complete hv ?_ v hfound
      rw [← href]
      exact hgo.imp_right fun hp => hp.grantsNext _ _
  | some v =>
      obtain ⟨-, hfound, hsize, hsame, -⟩ := hF.sound v hv
      have hpos : f.hdr.pos = 0 := hF.hdr.pos_eq
      rcases appendstring_spec (A := A) hF.hdr v.length_lt.le with
        ⟨hdr', h₁, ha, hs, hsize', -⟩ | ⟨ha, -, hfull, hno⟩
      · have hroom := room_of_append hF.hdr hs.represents hsize' (by omega)
        obtain ⟨b, h', he, hstr⟩ := handover (A := A) hbuf hF.apart hs.evolves hs.represents hroom
        have hrun : getpfxfile json_decode A curl auth_header junk h = .ok (some b, h') := by
          simp only [getpfxfile, hf, ok_bind, hv, appendstringz_single, ha]
          exact he
        rw [List.nil_append, beforeNul_eq_self v.noNul] at hstr
        exact ⟨_, hrun, howned.of_ok hrun, .inr ⟨b, v, _, rfl, hfound, hstr, .inl rfl⟩⟩
      · -- The append is refused, which is not looked at.
        obtain ⟨b, h', he, hstr⟩ := handover (A := A) hbuf hF.apart (Heap.evolves_refuse _ _)
          (represents_refuse hF.hdr) (by omega)
        have hrun : getpfxfile json_decode A curl auth_header junk h = .ok (some b, h') := by
          simp only [getpfxfile, hf, ok_bind, hv, appendstringz_single, ha]
          exact he
        have hmore : f.heap.refuse.refusals ≤ h'.refusals :=
          ((handover_owned ⟨hF.hdr.pos_le, hF.hdr.size_le⟩
            (Conserves.refl [f.buf.buf, f.hdr.buf] f.heap.refuse)).of_ok he).refusals_le
        have hrefuse : f.heap.refuse.refusals = f.heap.refusals + 1 := rfl
        refine ⟨_, hrun, howned.of_ok hrun,
          .inr ⟨b, v, [], rfl, hfound, hstr, .inr ⟨rfl, fun hsame => ?_, fun hp => ?_⟩⟩⟩
        · have hsame : h'.refusals = h.refusals := hsame
          omega
        · have hlen := found_short hp.2 hfound
          refine Heap.not_grantsNext hno ?_ Nat.one_pos (hp.grantsNext _ _)
          unfold bodyLimit at hlen
          unfold ptrdiffMax
          omega

end Requests

/-! ## The program -/

section Main

/-- A string in a block that an operation has no part in stays, and no new block is it. -/
theorem cString_kept {p : Ptr} {ps ps' : List Ptr} {s : List UInt8} (hf : h.Fresh)
    (hc : Conserves ps ps' h h') (hp : p ∉ ps) (hs : h.cString p = some s) :
    p ∉ ps' ∧ h'.cString p = some s := by
  cases p with
  | none => cases hs
  | some b =>
      have hb := congrFun (hc.others hf) b
      unfold Heap.cString at hs ⊢
      rw [Option.bind_some] at hs ⊢
      rw [without, without, if_neg hp] at hb
      by_cases hp' : some b ∈ ps'
      · rw [if_pos hp'] at hb
        rw [← hb] at hs
        cases hs
      · rw [if_neg hp'] at hb
        rw [hb]
        exact ⟨hp', hs⟩

/-- A block that holds a string can be released. -/
theorem free_ok {p : Ptr} {s : List UInt8} (hs : h.cString p = some s) :
    ∃ h', h.free p = .ok h' ∧ Conserves [p] [] h h' := by
  cases p with
  | none => cases hs
  | some b =>
      cases hb : h.blocks b with
      | none =>
          unfold Heap.cString at hs
          rw [Option.bind_some, hb] at hs
          cases hs
      | some cells =>
          have hfree : h.free (some b) = .ok (h.release b) := by rw [Heap.free, hb]
          exact ⟨_, hfree, conserves_free.of_ok hfree⟩

/-- The token and the secret that the two documents hold. -/
def BothFound (json_decode : JsonDecoder) (curl : Curl) (token secret : CString) : Prop :=
  Found json_decode (tokenBody curl) (ascii "access_token") token ∧
    Found json_decode (secretBody curl (bearer.bytes ++ token.bytes)) (ascii "value") secret

/-- What the program does: it prints the secret, or an empty line in its place if a request
was refused; or it fails, and then a document is missing or a request was refused.  None is
when there is memory for everything. -/
def Prints (json_decode : JsonDecoder) (A : Allocator UInt8) (curl : Curl) (h : Heap UInt8)
    (r : ProgramRun) : Prop :=
  r.res = 0 ∧ (∃ token secret, BothFound json_decode curl token secret ∧
      (r.stdout = secret.bytes ++ ascii "\n" ∨
        r.stdout = ascii "\n" ∧ r.heap.refusals ≠ h.refusals ∧ ¬ Plenty json_decode A)) ∨
    r.res = 1 ∧ r.stdout = [] ∧ (r.heap.refusals = h.refusals ∨ Plenty json_decode A →
      ¬ ∃ token secret, BothFound json_decode curl token secret)

/-- **What the program prints**, for every server, allocator and decoder; it leaves the heap
as it found it. -/
theorem getpfxfileMain_run (json_decode : JsonDecoder) (A : Allocator UInt8) (curl : Curl)
    (junk junk' : ℤ) (hf : h.Fresh) :
    ∃ r, getpfxfileMain json_decode A (some curl) junk junk' h = .ok r ∧
      r.heap.blocks = h.blocks ∧ Prints json_decode A curl h r := by
  have howned := getpfxfileMain_owned json_decode A (some curl) junk junk' h
  suffices hrun : ∃ r, getpfxfileMain json_decode A (some curl) junk junk' h = .ok r ∧
      Prints json_decode A curl h r by
    obtain ⟨r, hr, hprints⟩ := hrun
    exact ⟨r, hr, (howned.of_ok hr).blocks_eq hf, hprints⟩
  obtain ⟨⟨auth_hdr, h₁⟩, htoken, hc₁, hresult⟩ :=
    getmetadatatoken_requested json_decode A curl junk h
  unfold getpfxfileMain
  dsimp only
  rw [htoken, ok_bind]
  dsimp only at hresult ⊢
  rcases hresult with ⟨hnone, hmissing⟩ | ⟨b, token, s, hb, hfound, hs, rfl⟩
  · obtain rfl : auth_hdr = none := hnone
    refine ⟨_, rfl, .inr ⟨rfl, rfl, ?_⟩⟩
    rintro hgo ⟨token, secret, hboth⟩
    exact hmissing hgo token hboth.1
  · obtain rfl : auth_hdr = some b := hb
    have hstr : stringAt (some b) h₁ = .ok (bearer.bytes ++ token.bytes) := by
      unfold stringAt
      rw [hs]
    obtain ⟨⟨pfx_b64, h₂⟩, hsecret, hc₂, hresult'⟩ := getpfxfile_requested json_decode A curl
      (bearer.bytes ++ token.bytes) junk' h₁
    rw [if_neg (Option.some_ne_none b), hstr, ok_bind, hsecret, ok_bind]
    dsimp only at hc₁ hc₂ hresult' ⊢
    obtain ⟨hapart, hs₂⟩ := cString_kept (hc₁.fresh hf) hc₂ List.not_mem_nil hs
    obtain ⟨h₃, hfree, hc₃⟩ := free_ok hs₂
    rw [hfree, ok_bind]
    have hle := hc₁.refusals_le
    have hle₂ := hc₂.refusals_le
    have hle₃ := hc₃.refusals_le
    rcases hresult' with ⟨rfl, hmissing⟩ | ⟨c, secret, s, rfl, hfound', hs', hpassed⟩
    · refine ⟨_, rfl, .inr ⟨rfl, rfl, ?_⟩⟩
      rintro hgo ⟨token', secret, hboth⟩
      have hgo : h₃.refusals = h.refusals ∨ Plenty json_decode A := hgo
      obtain rfl := found_unique hboth.1 hfound
      exact hmissing (hgo.imp_left fun hno => by omega) secret hboth.2
    · have hne : some c ∉ [some b] := by
        rw [List.mem_singleton] at hapart ⊢
        exact Ne.symm hapart
      have hs₃ := (cString_kept (hc₂.fresh (hc₁.fresh hf)) hc₃ hne hs').2
      obtain ⟨h₄, hfree', hc₄⟩ := free_ok hs₃
      have hle₄ := hc₄.refusals_le
      have hstr' : stringAt (some c) h₃ = .ok s := by
        unfold stringAt
        rw [hs₃]
      rw [if_neg (Option.some_ne_none c), hstr', ok_bind, hfree', ok_bind]
      refine ⟨_, rfl, .inl ⟨rfl, token, secret, ⟨hfound, hfound'⟩, ?_⟩⟩
      rcases hpassed with rfl | ⟨rfl, hrefused, hscarce⟩
      · exact .inl rfl
      · refine .inr ⟨rfl, fun hno => ?_, hscarce⟩
        have hno : h₄.refusals = h.refusals := hno
        omega

/-- Both secrets are found in the two documents. -/
theorem documents_found : BothFound documentsDecode documentsCurl shortToken shortSecret := by
  refine ⟨token_found, ?_⟩
  have hbody : secretBody documentsCurl (bearer.bytes ++ shortToken.bytes) = secretText.bytes := rfl
  have hnul : (0 : UInt8) ∉ secretText.bytes := by decide
  have hle : secretText.bytes.length ≤ bodyLimit := by decide
  have hother : secretText.bytes ≠ tokenText.bytes := by decide
  rw [hbody, found_iff hle, beforeNul_eq_self hnul, documentsDecode, if_neg hother, if_pos rfl,
    stringMember_eq_some]
  rfl

/-- Both documents are found and no request is refused: the secret and a newline are
printed. -/
theorem getpfxfileMain_run_documents :
    ∃ r, getpfxfileMain documentsDecode (generous true 0) (some documentsCurl) 0 0 Heap.empty =
        .ok r ∧
      r.heap.blocks = (Heap.empty : Heap UInt8).blocks ∧ r.res = 0 ∧ r.stdout = ascii "s\n" := by
  obtain ⟨r, hrun, hblocks, hprints⟩ :=
    getpfxfileMain_run documentsDecode (generous true 0) documentsCurl 0 0 fresh_empty
  have hplenty : Plenty documentsDecode (generous true 0) := ⟨fun _ => rfl, documentsDecode_short⟩
  refine ⟨r, hrun, hblocks, ?_⟩
  rcases hprints with ⟨hres, token, secret, hboth, hout⟩ | ⟨-, -, hmissing⟩
  · rcases hout with hout | ⟨-, -, hscarce⟩
    · rw [found_unique hboth.1 documents_found.1] at hboth
      rw [found_unique hboth.2 documents_found.2] at hout
      exact ⟨hres, hout⟩
    · exact absurd hplenty hscarce
  · exact absurd ⟨_, _, documents_found⟩ (hmissing (.inr hplenty))

end Main

/-! ## The decoder of `json.c` -/

section Library

variable {F : Floating} {name body : List UInt8} {v : CString}

/-- What the decoder makes of the text is what a call of `json_decode` of `json.c` returned,
with a stack that has a frame for each character. -/
def DecodedBy (F : Floating) (json_decode : JsonDecoder) (text : List UInt8) : Prop :=
  ∃ (json : CString) (A : Allocator UInt8) (frames : ℕ) (r : Option (JsonTree F.double)),
    json.bytes = text ∧ text.length < frames ∧ jsonDecode F A frames json = .ok r ∧
      json_decode text = r.map JsonTree.node

/-- The document is one the download accepts, and a JSON text of an object whose first member
of that name is the string `v`. -/
def HoldsMember (F : Floating) (body name : List UInt8) (v : CString) : Prop :=
  body.length ≤ bodyLimit ∧ ∃ tree : JsonTree F.double, JsonText F (beforeNul body) tree ∧
    Model.jsonFindMember (some tree.node) name = some (.JSON_STRING v)

/-- **What is found is what the grammar says**, if the parser returned. -/
theorem found_iff_holds (hdecode : DecodedBy F json_decode (beforeNul body)) :
    Found json_decode body name v ↔ HoldsMember F body name v := by
  obtain ⟨json, A, frames, r, hjson, hframes, hrun, hr⟩ := hdecode
  rw [← hjson] at hframes
  have hvalue := (jsonDecode_yields json hframes).of_ok hrun
  rw [hjson] at hvalue
  refine and_congr_right fun _ => ?_
  rw [hr]
  constructor
  · rintro ⟨root, hroot, hfind⟩
    obtain ⟨tree, htree, rfl⟩ := Option.map_eq_some_iff.mp hroot
    exact ⟨tree, (hvalue tree).mp htree, hfind⟩
  · rintro ⟨tree, htree, hfind⟩
    exact ⟨tree.node, Option.map_eq_some_iff.mpr ⟨tree, (hvalue tree).mpr htree, rfl⟩, hfind⟩

/-- A decoder that does what `json_decode` does with the text of an object. -/
theorem memberText_decoded :
    DecodedBy digitNumbers (fun _ => some memberValue.node) (beforeNul memberText.bytes) := by
  have hframes : memberText.bytes.length < 14 := by decide
  have hsize : 2 * (memberText.bytes.length + 16) ≤ ptrdiffMax := by decide
  have htext := memberText_jsonText
  rw [beforeNul_eq_self memberText.noNul]
  generalize memberText = json at hframes hsize htext ⊢
  obtain ⟨r, hrun, hr⟩ := returns_of_granted (A := generous true 0) (fun _ => rfl) hsize
    (jsonDecode_yields json hframes)
  rw [(hr memberValue).mpr htext] at hrun
  exact ⟨json, generous true 0, 14, some memberValue, rfl, hframes, hrun, rfl⟩

/-- The string is the first member of that name of the object, and it is found. -/
theorem found_iff_holds_member :
    HoldsMember digitNumbers memberText.bytes (ascii "id") memberString ∧
      Found (fun _ => some memberValue.node) memberText.bytes (ascii "id") memberString := by
  have hle : memberText.bytes.length ≤ bodyLimit := by decide
  have hfound : Found (fun _ => some memberValue.node) memberText.bytes (ascii "id")
      memberString := ⟨hle, memberValue.node, rfl, rfl⟩
  exact ⟨(found_iff_holds memberText_decoded).mp hfound, hfound⟩

end Library

end AzureMetadata.Analysis
