/-
Which images a success is reported for, `src/arrow/software_release.c`.

The digest is compared with the checksum of the event, but its state outlives a download, and a
registered function decides what a difference leads to.

* `verified_iff` — when a success is only reported for an image that has the checksum of its event.
-/

import AcnSdk.Arrow.SoftwareRelease
import AcnSdk.Lib.Runs

namespace AcnSdk.Arrow

open AcnSdk.Lib AcnSdk.Data AcnSdk.Http AcnSdk.Json AcnSdk.Ssl

variable {σ ν : Type}

/-- A success is reported, and the gateway restarts, only if the digest of the bytes of the body is
the checksum. -/
def ReleaseOutcome.Verified (o : ReleaseOutcome) (parameters : JsonNode ν) : Prop :=
  o.success = true ∨ o.rebooted = true →
    ∃ res checksum, o.response = some res ∧
      stringMember parameters md5checksumText = some checksum ∧
      hexEncode (md5sum res.pieces.flatten) = checksum

/-! ### What the handler compares -/

namespace ReleaseEvent

variable (ev : ReleaseEvent σ ν)

/-- Pieces of the body have come to the digest. -/
def Digested (res : Response) : Prop := res.pieces ≠ [] ∧ ev.callbacks.payload.isSome = true

instance (res : Response) : Decidable (ev.Digested res) := inferInstanceAs (Decidable (_ ∧ _))

/-- The digest that the checksum is compared with: that of the body, or of what earlier downloads
have left. -/
def digest (md5 : Md5) (res : Response) : Bytes :=
  if ev.Digested res then md5sum res.pieces.flatten else wcMd5Final md5

/-- What the registered function is told, and what it returns then. -/
def told (md5 : Md5) (checksum : Bytes) (res : Response) (complete : FwResult → Int) : Int :=
  if hexEncode (ev.digest md5 res) <+: checksum then complete .success else complete .md5sum

/-- The handler comes to compare the digest with a checksum, after a response. -/
structure Completes (maxRetry : Int) (md5 : Md5) (checksum : Bytes) (res : Response)
    (complete : FwResult → Int) : Prop where
  addressed : ∃ hid, stringMember ev.parameters softwareReleaseTransHidText = some hid
  received : Answered maxRetry ev.received
  checksum_eq : ev.checksum = some checksum
  init : 0 ≤ ev.callbacks.initResult checksum
  opened : 0 ≤ ev.download.opened
  client : ∃ ret, 0 ≤ ret ∧ ev.client md5 = .ok (ret, res)
  code : res.httpResponseCode = 200
  complete_eq : ev.callbacks.complete = some complete

/-- Where the front of the checksum is the digest, the registered function refuses the success, or
the checksum ends there and the digest is that of the body. Elsewhere it refuses the difference, or
the digest is not that of the body and the checksum is. -/
def Meets (maxRetry : Int) (md5 : Md5) : Prop :=
  ∀ checksum res complete, ev.Completes maxRetry md5 checksum res complete →
    if hexEncode (ev.digest md5 res) <+: checksum then
      complete .success < 0 ∨ (checksum.length = 32 ∧ ev.digest md5 res = md5sum res.pieces.flatten)
    else
      complete .md5sum < 0 ∨
        (¬ ev.Digested res ∧ checksum = hexEncode (md5sum res.pieces.flatten))

variable {ev} {maxRetry : Int} {viaMqtt : Bool} {md5 : Md5} {checksum : Bytes} {res : Response}
  {complete : FwResult → Int} {s : HttpSettings} {o : ReleaseOutcome}

theorem final_handed (md5 : Md5) (res : Response) :
    wcMd5Final (handed ev.callbacks [] md5 res.pieces) = ev.digest md5 res := by
  rw [digest]
  cases registered : ev.callbacks.payload with
  | none =>
      have undigested : ¬ ev.Digested res := by
        rintro ⟨-, some⟩
        rw [registered] at some
        cases some
      rw [handed_none registered, if_neg undigested]
  | some payload =>
      rw [handed_eq registered]
      by_cases empty : res.pieces = []
      · have undigested : ¬ ev.Digested res := fun digested => digested.1 empty
        rw [if_pos empty, if_neg undigested]
      · have digested : ev.Digested res := ⟨empty, by rw [registered]; rfl⟩
        rw [if_neg empty, if_pos digested, wcMd5Final_pieces]

theorem hexEncode_digest_length (ev : ReleaseEvent σ ν) (md5 : Md5) (res : Response) :
    (hexEncode (ev.digest md5 res)).length = 32 := by
  rw [hexEncode_length, digest]
  split_ifs <;> rfl

/-! ### One event -/

theorem downloadProc_eq (code : res.httpResponseCode = 200)
    (complete_eq : ev.callbacks.complete = some complete) (checksum : Bytes) (md5 : Md5) :
    downloadProc ev.callbacks checksum res (handed ev.callbacks [] md5 res.pieces) =
      (wcInitMd5, ev.told md5 checksum res complete) := by
  rw [downloadProc, if_neg (not_not.mpr code), complete_eq]
  dsimp only
  rw [final_handed, told]
  exact congrArg _ (if_congr (strncmp_eq_zero_iff (hexEncode_length _) checksum) rfl rfl)

theorem softwareReleaseDone_success (maxRetry : Int) (done : Downloaded) (s : HttpSettings) :
    (softwareReleaseDone ev maxRetry done s).success = true ↔ 0 ≤ done.ret := by
  rw [softwareReleaseDone]
  dsimp only
  split_ifs with fails
  · exact iff_of_false (by decide) (Int.not_le.mpr fails)
  · exact iff_of_false (by decide) (Int.not_le.mpr fails)
  · exact iff_of_true rfl (Int.not_lt.mp fails)
  · exact iff_of_true rfl (Int.not_lt.mp fails)

theorem softwareReleaseDone_rebooted (done : Downloaded) (s : HttpSettings)
    (rebooted : (softwareReleaseDone ev maxRetry done s).rebooted = true) :
    (softwareReleaseDone ev maxRetry done s).success = true := by
  rw [softwareReleaseDone] at rebooted ⊢
  dsimp only at rebooted ⊢
  split_ifs at rebooted ⊢
  rfl

theorem softwareReleaseDone_response (maxRetry : Int) (done : Downloaded) (s : HttpSettings) :
    (softwareReleaseDone ev maxRetry done s).response = done.response := by
  rw [softwareReleaseDone]
  dsimp only
  split_ifs <;> rfl

theorem Completes.download (completes : ev.Completes maxRetry md5 checksum res complete) :
    arrowSoftwareReleaseDownload ev checksum md5 =
      .ok ⟨ev.told md5 checksum res complete, wcInitMd5, some res⟩ := by
  obtain ⟨ret, accepted, client⟩ := completes.client
  rw [arrowSoftwareReleaseDownload, if_neg (Int.not_lt.mpr completes.opened),
    Prog.then_of_ok client]
  dsimp only
  rw [if_neg (Int.not_lt.mpr accepted), downloadProc_eq completes.code completes.complete_eq]
  rfl

/-- The handler that comes to compare does what the registered function tells it to. -/
theorem Completes.run (completes : ev.Completes maxRetry md5 checksum res complete)
    (viaMqtt : Bool) (s : HttpSettings) :
    ∃ o, evDeviceSoftwareRelease ev maxRetry viaMqtt md5 s = .ok o ∧ o.response = some res ∧
      (o.success = true ↔ 0 ≤ ev.told md5 checksum res complete) := by
  obtain ⟨hid, addressed⟩ := completes.addressed
  have body : ∀ s, ∃ s', releaseBody ev md5 s =
      .ok (⟨ev.told md5 checksum res complete, wcInitMd5, some res⟩, s') := by
    intro s
    rw [releaseBody, completes.checksum_eq]
    dsimp only
    rw [if_neg (Int.not_lt.mpr completes.init), Prog.then_of_ok completes.download]
    exact ⟨_, rfl⟩
  rw [evDeviceSoftwareRelease, addressed]
  dsimp only
  rw [if_pos ((retryRequest_success maxRetry ev.received _).mpr completes.received)]
  obtain ⟨s', body⟩ := body (retryRequest maxRetry ev.received _).state
  rw [Prog.then_of_ok body]
  exact ⟨_, rfl, softwareReleaseDone_response _ _ _, softwareReleaseDone_success _ _ _⟩

/-- A download that succeeds comes to compare. -/
theorem downloaded {done : Downloaded}
    (run : arrowSoftwareReleaseDownload ev checksum md5 = .ok done) (success : 0 ≤ done.ret) :
    0 ≤ ev.download.opened ∧ ∃ ret res complete, 0 ≤ ret ∧ ev.client md5 = .ok (ret, res) ∧
      res.httpResponseCode = 200 ∧ ev.callbacks.complete = some complete := by
  have minus : ¬ (0 : Int) ≤ -1 := by decide
  rw [arrowSoftwareReleaseDownload] at run
  split_ifs at run with refused
  · cases run
    exact absurd refused (Int.not_lt.mpr success)
  · obtain ⟨⟨ret, res⟩, client, run⟩ := Prog.ok_of_bind run
    dsimp only at run
    split_ifs at run with failed
    · cases run
      exact absurd failed (Int.not_lt.mpr success)
    · cases run
      rw [downloadProc] at success
      split_ifs at success with code
      · exact absurd success minus
      · cases registered : ev.callbacks.complete with
        | none =>
            rw [registered] at success
            exact absurd success minus
        | some complete =>
            exact ⟨Int.not_lt.mp refused, ret, res, complete, Int.not_lt.mp failed, client,
              not_not.mp code, rfl⟩

theorem rebooted_success (run : evDeviceSoftwareRelease ev maxRetry viaMqtt md5 s = .ok o)
    (rebooted : o.rebooted = true) : o.success = true := by
  rw [evDeviceSoftwareRelease] at run
  cases addressed : stringMember ev.parameters softwareReleaseTransHidText with
  | none =>
      rw [addressed] at run
      cases run
      cases rebooted
  | some hid =>
      rw [addressed] at run
      dsimp only at run
      split_ifs at run with received
      · obtain ⟨⟨done, s'⟩, -, run⟩ := Prog.ok_of_bind run
        cases run
        exact softwareReleaseDone_rebooted done s' rebooted
      · cases run
        cases rebooted

/-- A success is only reported where the handler has come to compare. -/
theorem completes_of_success (run : evDeviceSoftwareRelease ev maxRetry viaMqtt md5 s = .ok o)
    (success : o.success = true) :
    ∃ checksum res complete, ev.Completes maxRetry md5 checksum res complete := by
  have minus : ¬ (0 : Int) ≤ -1 := by decide
  rw [evDeviceSoftwareRelease] at run
  cases addressed : stringMember ev.parameters softwareReleaseTransHidText with
  | none =>
      rw [addressed] at run
      cases run
      cases success
  | some hid =>
      rw [addressed] at run
      dsimp only at run
      split_ifs at run with received
      · obtain ⟨⟨done, s'⟩, body, run⟩ := Prog.ok_of_bind run
        cases run
        have accepted := (softwareReleaseDone_success maxRetry done s').mp success
        rw [releaseBody] at body
        cases members : ev.checksum with
        | none =>
            rw [members] at body
            cases body
            exact absurd accepted minus
        | some checksum =>
            rw [members] at body
            dsimp only at body
            split_ifs at body with init
            · cases body
              exact absurd init (Int.not_lt.mpr accepted)
            · obtain ⟨done', download, body⟩ := Prog.ok_of_bind body
              cases body
              obtain ⟨opened, ret, res, complete, kept, client, code, registered⟩ :=
                downloaded download accepted
              exact ⟨checksum, res, complete, ⟨hid, addressed⟩,
                (retryRequest_success maxRetry ev.received _).mp received, members,
                Int.not_lt.mp init, opened, ⟨ret, kept, client⟩, code, registered⟩
      · cases run
        cases success

theorem checksum_member (checksum_eq : ev.checksum = some checksum) :
    stringMember ev.parameters md5checksumText = some checksum := by
  rw [ReleaseEvent.checksum] at checksum_eq
  obtain ⟨_, -, rest⟩ := Option.bind_eq_some_iff.mp checksum_eq
  obtain ⟨_, -, rest⟩ := Option.bind_eq_some_iff.mp rest
  obtain ⟨_, -, rest⟩ := Option.bind_eq_some_iff.mp rest
  exact rest

/-- A success is only reported for an image with the checksum exactly if what the registered
function is told and returns says so. -/
theorem verified_iff_told (maxRetry : Int) (viaMqtt : Bool) (md5 : Md5) (s : HttpSettings) :
    (∀ o, evDeviceSoftwareRelease ev maxRetry viaMqtt md5 s = .ok o → o.Verified ev.parameters) ↔
      ∀ checksum res complete, ev.Completes maxRetry md5 checksum res complete →
        0 ≤ ev.told md5 checksum res complete →
          hexEncode (md5sum res.pieces.flatten) = checksum := by
  constructor
  · intro verified checksum res complete completes accepted
    obtain ⟨o, run, response, success⟩ := completes.run viaMqtt s
    obtain ⟨res', checksum', response', member, eq⟩ :=
      verified o run (.inl (success.mpr accepted))
    cases response.symm.trans response'
    cases (checksum_member completes.checksum_eq).symm.trans member
    exact eq
  · intro told o run success
    have reported : o.success = true := success.elim id (rebooted_success run)
    obtain ⟨checksum, res, complete, completes⟩ := completes_of_success run reported
    obtain ⟨o', run', response, success'⟩ := completes.run viaMqtt s
    cases run.symm.trans run'
    exact ⟨res, checksum, response, checksum_member completes.checksum_eq,
      told checksum res complete completes (success'.mp reported)⟩

theorem told_iff (md5 : Md5) (checksum : Bytes) (res : Response) (complete : FwResult → Int) :
    (0 ≤ ev.told md5 checksum res complete →
      hexEncode (md5sum res.pieces.flatten) = checksum) ↔
    if hexEncode (ev.digest md5 res) <+: checksum then
      complete .success < 0 ∨ (checksum.length = 32 ∧ ev.digest md5 res = md5sum res.pieces.flatten)
    else
      complete .md5sum < 0 ∨
        (¬ ev.Digested res ∧ checksum = hexEncode (md5sum res.pieces.flatten)) := by
  have length := hexEncode_digest_length ev md5 res
  rw [told]
  by_cases front : hexEncode (ev.digest md5 res) <+: checksum
  · rw [if_pos front, if_pos front]
    constructor
    · intro same
      by_cases refused : complete .success < 0
      · exact .inl refused
      · have eq := same (Int.not_lt.mp refused)
        have whole : checksum.length = 32 := by
          rw [← eq, hexEncode_length]
          rfl
        have digest_eq := front.eq_of_length (by rw [length, whole])
        exact .inr ⟨whole, hexEncode_inj (digest_eq.trans eq.symm)⟩
    · rintro (refused | ⟨whole, eq⟩) accepted
      · exact absurd accepted (Int.not_le.mpr refused)
      · rw [← eq]
        exact front.eq_of_length (by rw [length, whole])
  · rw [if_neg front, if_neg front]
    constructor
    · intro same
      by_cases refused : complete .md5sum < 0
      · exact .inl refused
      · have eq := same (Int.not_lt.mp refused)
        refine .inr ⟨?_, eq.symm⟩
        intro digested
        refine front ⟨[], ?_⟩
        rw [List.append_nil, digest, if_pos digested, eq]
    · rintro (refused | ⟨-, eq⟩) accepted
      · exact absurd accepted (Int.not_le.mpr refused)
      · exact eq.symm

/-- A success is only reported for an image with the checksum exactly if the event meets the
condition. -/
theorem verified_step (maxRetry : Int) (viaMqtt : Bool) (md5 : Md5) (s : HttpSettings) :
    (∀ o, evDeviceSoftwareRelease ev maxRetry viaMqtt md5 s = .ok o → o.Verified ev.parameters) ↔
      ev.Meets maxRetry md5 := by
  rw [verified_iff_told]
  exact forall₃_congr fun checksum res complete =>
    forall_congr' fun _ => told_iff md5 checksum res complete

end ReleaseEvent

/-! ### The events of a process -/

/-- The state of the digest and the settings of the client after some events. -/
def afterReleases (maxRetry : Int) (viaMqtt : Bool) :
    List (ReleaseEvent σ ν) → Md5 → HttpSettings → Except Fault (Md5 × HttpSettings)
  | [], md5, s => .ok (md5, s)
  | ev :: evs, md5, s =>
      (evDeviceSoftwareRelease ev maxRetry viaMqtt md5 s).bind fun o =>
        afterReleases maxRetry viaMqtt evs o.md5 o.settings

/-- In every run of events, a success is only ever reported for an image with the checksum exactly
if each event meets the condition in the state of the digest that it finds. -/
theorem verified_iff (maxRetry : Int) (viaMqtt : Bool) (s : HttpSettings)
    (evs : List (ReleaseEvent σ ν)) :
    (∀ before ev, before ++ [ev] <+: evs → ∀ found,
      afterReleases maxRetry viaMqtt before .zeroed s = .ok found →
        ∀ o, evDeviceSoftwareRelease ev maxRetry viaMqtt found.1 found.2 = .ok o →
          o.Verified ev.parameters) ↔
    ∀ before ev, before ++ [ev] <+: evs → ∀ found,
      afterReleases maxRetry viaMqtt before .zeroed s = .ok found → ev.Meets maxRetry found.1 :=
  forall₂_congr fun _ ev => forall_congr' fun _ => forall₂_congr fun found _ =>
    ev.verified_step maxRetry viaMqtt found.1 found.2

section Stale

/-- The members of an event for the image `a`. -/
def imageParameters : JsonNode Nat :=
  .container none .object [
    .scalar (some softwareReleaseTransHidText) (.string [0x31]),
    .scalar (some tempTokenText) (.string [0x32]),
    .scalar (some fromSoftwareVersionText) (.string [0x33]),
    .scalar (some toSoftwareVersionText) (.string [0x34]),
    .scalar (some md5checksumText) (.string (hexEncode (md5sum [0x61])))]

/-- A response with that body, of the length `n`, as it comes in. -/
def answering (n : Byte) (body : Bytes) : Session where
  queue := ringbufInit (List.replicate 1024 0)
  net := ⟨versionText ++ [0x32, 0x30, 0x30] ++ okText ++ crlf ++ contentLengthText ++ separator ++
    [n] ++ crlf ++ crlf ++ body, -1, fun _ len => len, 0⟩

/-- An event for that image, with what its second registered function returns. -/
def imageEvent (stored : Int) (session : Session) : ReleaseEvent Session Nat where
  parameters := imageParameters
  callbacks := ⟨none, some fun _ _ _ => stored, some fun _ => 0⟩
  received := fun _ => ⟨0, false, false⟩
  download := ⟨.standard, clientSource .standard 100, pure 0, 100, session, 0, false, false⟩
  failed := fun _ => ⟨0, false, false⟩
  succeeded := fun _ => ⟨0, false, false⟩

/-- The first event cannot store the image, but leaves its digest. The second one downloads nothing,
and reports a success. -/
def staleEvents : List (ReleaseEvent Session Nat) :=
  [imageEvent (-1) (answering 0x31 [0x61]), imageEvent 0 (answering 0x30 [])]

/-- A computation ends well, with a result that passes a check. -/
def okWith {β : Type} (check : β → Bool) : Except Fault β → Bool
  | .ok b => check b
  | .error _ => false

theorem okWith_ok {β : Type} {check : β → Bool} {x : Except Fault β}
    (passes : okWith check x = true) : ∃ b, x = .ok b ∧ check b = true := by
  cases x with
  | error e => cases passes
  | ok b => exact ⟨b, rfl, passes⟩

/-- The digest of the second image is not looked at: the one compared is left of the first. -/
theorem not_verified_stale : ¬ (∀ before ev, before ++ [ev] <+: staleEvents → ∀ found,
    afterReleases (-1) false before .zeroed .initial = .ok found →
      ∀ o, evDeviceSoftwareRelease ev (-1) false found.1 found.2 = .ok o →
        o.Verified ev.parameters) := by
  intro verified
  have reports : okWith (fun found => okWith (fun o => o.success &&
      o.response.map Response.pieces == some [])
      (evDeviceSoftwareRelease (imageEvent 0 (answering 0x30 [])) (-1) false found.1 found.2))
      (afterReleases (-1) false [imageEvent (-1) (answering 0x31 [0x61])] .zeroed .initial) =
      true := by decide +kernel
  obtain ⟨found, first, reports⟩ := okWith_ok reports
  obtain ⟨o, second, reports⟩ := okWith_ok reports
  rw [Bool.and_eq_true, beq_iff_eq] at reports
  obtain ⟨res, checksum, response, member, eq⟩ :=
    verified _ _ (List.prefix_refl _) found first o second (.inl reports.1)
  have nothing : res.pieces = [] := by
    rw [response] at reports
    exact Option.some.inj reports.2
  rw [nothing] at eq
  have image : stringMember imageParameters md5checksumText = some (hexEncode (md5sum [0x61])) :=
    rfl
  cases image.symm.trans member
  exact absurd (hexEncode_inj eq) (by decide +kernel)

end Stale

end AcnSdk.Arrow
