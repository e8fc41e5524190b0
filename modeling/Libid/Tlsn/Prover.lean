import Libid.Base.Ascii
import Libid.Tlsn.Record
import Libid.Tlsn.Verifier

namespace Libid.Tlsn

/-! ### What the libraries hand over -/

/-- `text` is how the library shows it. -/
structure StatusCode where
  code : UInt16
  text : String

inductive TranscriptSecret
  | hash (direction : Direction) (idx : List Range) (blinder : Bytes)
  | other (text : String)

/-! ### `session.rs` -/

structure CommitmentOpening where
  direction : Direction
  ranges : List Range
  blinder : Bytes

/-- What setup returns: the function's result without the socket.  The secrets are `S`. -/
structure ProverSession (S : Type) where
  responseBody : Bytes
  secrets : S
  commitmentOpenings : List CommitmentOpening

/-- How far the function comes before its first await. -/
inductive ProverStart
  | noHost
  | originForm (error : String)
  | proverConfig (error : String)
  | newProver (error : String)
  | mpcTlsConfig (error : String)
  | ready

inductive ConnectError
  | io (error : String)
  | serverName (error : String)
  | tlsClientConfig (error : String)
  | connect (error : String)

inductive ProveConfigError
  | selectLayout (error : SessionError)
  | commitSent (error : String)
  | commitRecv (error : String)
  | transcriptCommitConfig (error : String)
  | revealSent (error : String)
  | revealRecv (error : String)
  | proveConfig (error : String)

inductive RequestError
  | requestConfig (error : String)
  | noCertChain
  | noSignature
  | serverName (error : String)

inductive ProverAwait (S : Type)
  | commit
  | connect
  | handshake
  | sendRequest
  | collectBody (status : StatusCode)
  | proverTask (body : Bytes)
  | prove (body : Bytes)
  | close (session : ProverSession S)

/-- What an await resolves to, with what the calls that follow it return up to the next. -/
inductive ProverValue (S : Type)
  | commit (result : Except String Unit)
  | connect (result : Except ConnectError Unit)
  | handshake (result : Except String Unit)
  | sendRequest (result : Except String StatusCode)
  | collectBody (result : Except String Bytes)
  | proverTask (result : Except String (Except String Unit))
      (config : Except ProveConfigError Unit)
  | prove (result : Except String (List TranscriptSecret)) (request : Except RequestError Unit)
      (secrets : Except String S)
  | close (result : Except String Unit)

def ConnectError.toError : ConnectError → SessionError
  | .io e => .io e
  | .serverName e => .mpcTlsFailed s!"server name: {e}"
  | .tlsClientConfig e => .mpcTlsFailed s!"tls client config: {e}"
  | .connect e => .mpcTlsFailed s!"connect: {e}"

def ProveConfigError.toError : ProveConfigError → SessionError
  | .selectLayout e => e
  | .commitSent e => .mpcTlsFailed s!"commit sent: {e}"
  | .commitRecv e => .mpcTlsFailed s!"commit recv: {e}"
  | .transcriptCommitConfig e => .mpcTlsFailed s!"transcript commit config: {e}"
  | .revealSent e => .mpcTlsFailed s!"reveal sent: {e}"
  | .revealRecv e => .mpcTlsFailed s!"reveal recv: {e}"
  | .proveConfig e => .mpcTlsFailed s!"prove config: {e}"

def RequestError.toError : RequestError → SessionError
  | .requestConfig e => .mpcTlsFailed s!"request config: {e}"
  | .noCertChain => .mpcTlsFailed "server cert chain not available"
  | .noSignature => .mpcTlsFailed "server signature not available"
  | .serverName e => .mpcTlsFailed s!"server name: {e}"

namespace ProverSetup

variable {S : Type}

def fail (detail : String) : Poll (ProverAwait S) (ProverSession S) :=
  .ready (.error (.mpcTlsFailed detail))

def enter : ProverStart → Except SessionError (Except SessionError (ProverAwait S))
  | .noHost => .error (.mpcTlsFailed "request URI carries no host")
  | .originForm e => .error (.mpcTlsFailed s!"origin-form request-target: {e}")
  | .proverConfig e => .ok (.error (.mpcTlsFailed s!"prover config: {e}"))
  | .newProver e => .ok (.error (.mpcTlsFailed s!"new prover: {e}"))
  | .mpcTlsConfig e => .ok (.error (.mpcTlsFailed s!"mpc tls config: {e}"))
  | .ready => .ok (.ok .commit)

def commitmentOpening : TranscriptSecret → Except SessionError CommitmentOpening
  | .hash direction idx blinder => .ok ⟨direction, idx, blinder⟩
  | .other text =>
    .error (.mpcTlsFailed s!"commitment secret of a kind this build cannot open: {text}")

def conclude (body : Bytes) (transcriptSecrets : List TranscriptSecret)
    (request : Except RequestError Unit) (secrets : Except String S) :
    Poll (ProverAwait S) (ProverSession S) :=
  match request, transcriptSecrets.mapM commitmentOpening, secrets with
  | .error e, _, _ => .ready (.error e.toError)
  | .ok (), .error e, _ => .ready (.error e)
  | .ok (), .ok _, .error e => fail s!"attestation request: {e}"
  | .ok (), .ok openings, .ok secrets => .pending (.close ⟨body, secrets, openings⟩)

def textOf (body : Bytes) : String :=
  (String.fromUTF8? ⟨(fromUtf8Lossy body).toArray⟩).getD ""

def resume : ProverAwait S → ProverValue S → World →
    Option (World × Poll (ProverAwait S) (ProverSession S))
  | .commit, .commit (.error e), w => some (w, fail s!"commit: {e}")
  | .commit, .commit (.ok ()), w => some (w, .pending .connect)
  | .connect, .connect (.error e), w => some (w, .ready (.error e.toError))
  | .connect, .connect (.ok ()), w => some (w.spawn .prover, .pending .handshake)
  | .handshake, .handshake (.error e), w => some (w, fail s!"http handshake: {e}")
  | .handshake, .handshake (.ok ()), w => some (w.spawn .conn, .pending .sendRequest)
  | .sendRequest, .sendRequest (.error e), w => some (w, fail s!"send request: {e}")
  | .sendRequest, .sendRequest (.ok status), w => some (w, .pending (.collectBody status))
  | .collectBody _, .collectBody (.error e), w => some (w, fail s!"collect body: {e}")
  | .collectBody status, .collectBody (.ok body), w =>
    if status.code ≠ 200 then
      some (w, fail s!"API returned {status.text}: {textOf body}")
    else some (w, .pending (.proverTask body))
  | .proverTask body, .proverTask result config, w =>
    if w.tasks .prover ≠ .finished then none
    else
      match result, config with
      | .error e, _ => some (w, fail s!"prover task join: {e}")
      | .ok (.error e), _ => some (w, fail s!"prover task: {e}")
      | .ok (.ok ()), .error e => some (w, .ready (.error e.toError))
      | .ok (.ok ()), .ok () => some (w, .pending (.prove body))
  | .prove _, .prove (.error e) _ _, w => some (w, fail s!"prove: {e}")
  | .prove body, .prove (.ok transcriptSecrets) request secrets, w =>
    some ({ w with established := true }, conclude body transcriptSecrets request secrets)
  | .close _, .close (.error e), w => some (w, fail s!"prover close: {e}")
  | .close session, .close (.ok ()), w => some (w, .ready (.ok session))
  | _, _, _ => none

def proverTask : AbortOnDrop := .new ⟨.prover⟩

def connTask : AbortOnDrop := .new ⟨.conn⟩

def locals : ProverAwait S → List Local
  | .commit | .connect => []
  | .handshake => [.guard proverTask]
  | .sendRequest | .collectBody _ => [.guard proverTask, .guard connTask]
  | .proverTask _ => proverTask.intoInner.toList.map .handle ++ [.guard connTask]
  | .prove _ | .close _ => [.guard connTask]

end ProverSetup

def proverSetup (S : Type) :
    Setup ProverStart (ProverAwait S) (ProverValue S) (ProverSession S) where
  enter := ProverSetup.enter
  resume := ProverSetup.resume
  locals := ProverSetup.locals

def proverGeneric (S : Type) {T : Type} :
    Machine (Session (ProverAwait S) (ProverSession S) T) (Event ProverStart (ProverValue S) T) :=
  (proverSetup S).machine

theorem verifierSetup_sound (display : Direction → String) : (verifierSetup display).Sound where
  pending h hheld task hrun := hheld task (VerifierSetup.resume_tasks h ▸ hrun)
  ready h := ⟨VerifierSetup.resume_tasks h, nofun⟩
  bare := nofun

namespace ProverSetup

variable {S : Type} {await next : ProverAwait S} {value : ProverValue S} {w w' : World}

theorem holds_iff {await : ProverAwait S} {task : Task} :
    Setup.Holds (.guard Setup.driverTask :: locals await) task ↔
      task = .driver ∨ match await with
        | .commit | .connect => False
        | .handshake => task = .prover
        | .sendRequest | .collectBody _ | .proverTask _ => task = .prover ∨ task = .conn
        | .prove _ | .close _ => task = .conn := by
  cases await <;> cases task <;>
    simp [Setup.Holds, locals, guarded, Setup.driverTask, proverTask, connTask,
      AbortOnDrop.intoInner, AbortOnDrop.new]

theorem handle_mem_locals {await : ProverAwait S} {handle : JoinHandle Task} :
    .handle handle ∈ locals await ↔ handle = ⟨.prover⟩ ∧ ∃ body, await = .proverTask body := by
  cases await <;> simp [locals, proverTask, connTask, AbortOnDrop.intoInner, AbortOnDrop.new]

theorem pending_conclude {body : Bytes} {transcriptSecrets : List TranscriptSecret}
    {request : Except RequestError Unit} {secrets : Except String S}
    (h : conclude body transcriptSecrets request secrets = .pending next) :
    ∃ session, next = .close session := by
  unfold conclude at h
  split at h
  case h_4 => exact ⟨_, (Poll.pending.inj h).symm⟩
  all_goals exact nomatch h

theorem resume_ready {result : Except SessionError (ProverSession S)}
    (h : resume await value w = some (w', .ready result)) : w'.tasks = w.tasks ∧
      ∀ body, await = .proverTask body → w.tasks .prover ≠ .running := by
  unfold resume at h
  split at h
  case h_2 | h_4 | h_6 | h_8 | h_16 => exact nomatch h
  case h_10 =>
    split at h
    case isTrue =>
      cases h
      exact ⟨rfl, nofun⟩
    case isFalse => exact nomatch h
  case h_11 _ body result config =>
    split at h
    case isTrue => exact nomatch h
    case isFalse hdone =>
      have hrun : w.tasks .prover ≠ .running := fun hrun => hdone (by simp [hrun])
      split at h
      case h_1 | h_2 | h_3 =>
        cases h
        exact ⟨rfl, fun _ _ => hrun⟩
      case h_4 => exact nomatch h
  case h_13 =>
    obtain ⟨rfl, -⟩ := Prod.mk.inj (Option.some.inj h)
    exact ⟨rfl, nofun⟩
  all_goals
    cases h
    exact ⟨rfl, nofun⟩

inductive Advances : ProverAwait S → World → ProverAwait S → World → Prop
  | commit {w : World} : Advances .commit w .connect w
  | connect {w : World} : Advances .connect w .handshake (w.spawn .prover)
  | handshake {w : World} : Advances .handshake w .sendRequest (w.spawn .conn)
  | sendRequest {w : World} {status : StatusCode} :
      Advances .sendRequest w (.collectBody status) w
  | collectBody {w : World} {status : StatusCode} {body : Bytes} :
      Advances (.collectBody status) w (.proverTask body) w
  | proverTask {w : World} {body : Bytes} : w.tasks .prover = .finished →
      Advances (.proverTask body) w (.prove body) w
  | prove {w : World} {body : Bytes} {session : ProverSession S} :
      Advances (.prove body) w (.close session) { w with established := true }

theorem resume_pending (h : resume await value w = some (w', .pending next)) :
    Advances await w next w' := by
  unfold resume at h
  split at h
  case h_2 | h_4 | h_6 | h_8 =>
    cases h
    constructor
  case h_10 =>
    split at h
    case isTrue => exact nomatch h
    case isFalse =>
      cases h
      constructor
  case h_11 _ body result config =>
    split at h
    case isTrue => exact nomatch h
    case isFalse hdone =>
      split at h
      case h_1 | h_2 | h_3 => exact nomatch h
      case h_4 =>
        cases h
        exact .proverTask (not_not.mp hdone)
  case h_13 =>
    obtain ⟨rfl, hnext⟩ := Prod.mk.inj (Option.some.inj h)
    obtain ⟨session, rfl⟩ := pending_conclude hnext
    exact .prove
  all_goals exact nomatch h

theorem Advances.holds (h : Advances await w next w')
    (hheld : ∀ task, w.tasks task = .running →
      Setup.Holds (.guard Setup.driverTask :: locals await) task) {task : Task}
    (hrun : w'.tasks task = .running) :
    Setup.Holds (.guard Setup.driverTask :: locals next) task := by
  cases h with
  | commit | sendRequest | collectBody | prove =>
    exact holds_iff.mpr (holds_iff.mp (hheld task hrun))
  | connect =>
    obtain rfl | hrun := (Tasks.spawn_eq_running ..).mp hrun
    · exact holds_iff.mpr (.inr rfl)
    · exact holds_iff.mpr (.inl ((holds_iff.mp (hheld task hrun)).resolve_right id))
  | handshake =>
    obtain rfl | hrun := (Tasks.spawn_eq_running ..).mp hrun
    · exact holds_iff.mpr (.inr (.inr rfl))
    · exact holds_iff.mpr ((holds_iff.mp (hheld task hrun)).imp_right .inl)
  | proverTask hdone =>
    have hne : task ≠ .prover := by
      rintro rfl
      exact nomatch hdone.symm.trans hrun
    exact holds_iff.mpr ((holds_iff.mp (hheld task hrun)).imp_right fun h => h.resolve_left hne)

end ProverSetup

theorem proverSetup_sound (S : Type) : (proverSetup S).Sound where
  pending h hheld _ hrun := (ProverSetup.resume_pending h).holds hheld hrun
  ready h := by
    refine ⟨(ProverSetup.resume_ready h).1, fun task hmem => ?_⟩
    obtain ⟨htask, body, hawait⟩ := ProverSetup.handle_mem_locals.mp hmem
    obtain rfl := JoinHandle.mk.inj htask
    exact (ProverSetup.resume_ready h).2 body hawait
  bare {await task} hmem := by
    obtain ⟨htask, body, rfl⟩ := ProverSetup.handle_mem_locals.mp hmem
    obtain rfl := JoinHandle.mk.inj htask
    exact (by decide : guarded .prover ∉ [Local.guard Setup.driverTask, .handle ⟨.prover⟩,
      .guard ProverSetup.connTask])

/-! ### Tasks left behind -/

abbrev ProverState (S T : Type) := Session (ProverAwait S) (ProverSession S) T

abbrev ProverEvent (S T : Type) := Event ProverStart (ProverValue S) T

/-- The caller drops the future while it joins the driver. -/
def DropsDriver {κ σ ν α T : Type} (s : Session σ α T) (e : Event κ ν T) : Prop :=
  e = .drop ∧ (∃ output, s.phase = .joining output) ∧ s.world.tasks .driver = .running

/-- While setup joins the prover task, the caller drops the future or the driver is found to
have finished. -/
def DropsProver {S T : Type} (s : ProverState S T) (e : ProverEvent S T) : Prop :=
  s.world.tasks .prover = .running ∧ ∃ body,
    (s.phase.suspended = some (.proverTask body) ∧ e = .drop) ∨
      (s.phase = .racing (.proverTask body) ∧ s.world.established = false ∧
        ∃ driverRes, e = .driver driverRes)

theorem verifier_detaches_iff {display : Direction → String} {T : Type} {s : VerifierState T}
    {e : VerifierEvent T} : (verifierSetup display).Detaches s e ↔ DropsDriver s e := by
  rw [Setup.detaches_iff, DropsDriver, or_iff_left]
  rintro ⟨await, task, hmem, -⟩
  exact nomatch hmem

theorem prover_detaches_iff {S T : Type} {s : ProverState S T} {e : ProverEvent S T} :
    (proverSetup S).Detaches s e ↔ DropsDriver s e ∨ DropsProver s e := by
  rw [Setup.detaches_iff, DropsDriver]
  refine or_congr_right ⟨?_, ?_⟩
  · rintro ⟨await, task, hmem, hrun, hleaves⟩
    obtain ⟨htask, body, rfl⟩ := ProverSetup.handle_mem_locals.mp hmem
    obtain rfl := JoinHandle.mk.inj htask
    exact ⟨hrun, body, hleaves⟩
  · rintro ⟨hrun, body, hleaves⟩
    exact ⟨_, _, ProverSetup.handle_mem_locals.mpr ⟨rfl, body, rfl⟩, hrun, hleaves⟩

/-- A session that has ended, in whatever way, left a task running exactly when it ended
while it was joining that task. -/
theorem no_task_left_iff (display : Direction → String) (S T : Type) :
    (∀ h, ∀ t : VerifierState T, (verifier display).Run h t → t.phase.ended = true →
      (Setup.Settled t.world.tasks ↔ ∀ p ∈ h, ¬ DropsDriver p.1 p.2)) ∧
    ∀ h, ∀ t : ProverState S T, (proverGeneric S).Run h t → t.phase.ended = true →
      (Setup.Settled t.world.tasks ↔ ∀ p ∈ h, ¬ DropsDriver p.1 p.2 ∧ ¬ DropsProver p.1 p.2) := by
  constructor
  · intro h t hrun hend
    simp only [(verifierSetup_sound display).settled_iff hrun hend, verifier_detaches_iff]
  · intro h t hrun hend
    simp only [(proverSetup_sound S).settled_iff hrun hend, prover_detaches_iff, not_or]

theorem no_task_left_iff_run :
    (∃ h, ∃ t : VerifierState Unit, (verifier fun _ => "").Run h t ∧
      h.map Prod.snd = [.resolve (.commit (.error "closed")), .start .ready] ∧
      Setup.Settled t.world.tasks) ∧
    ∃ h, ∃ t : ProverState Unit Unit, (proverGeneric Unit).Run h t ∧
      h.map Prod.snd = [.resolve (.handshake (.error "closed")), .resolve (.connect (.ok ())),
        .resolve (.commit (.ok ())), .start .ready] ∧
      Setup.Settled t.world.tasks := by
  have hleft := no_task_left_iff (fun _ => "") Unit Unit
  constructor
  · obtain ⟨h, hrun, hevents⟩ := Machine.Run.foldlM (m := verifier (T := Unit) fun _ => "")
      [.start .ready, .resolve (.commit (.error "closed"))] .nil rfl
    refine ⟨h, _, hrun, hevents, (hleft.1 h _ hrun rfl).mpr ?_⟩
    rintro p hp ⟨hdrop, -⟩
    have hmem := hevents ▸ List.mem_map_of_mem (f := Prod.snd) hp
    simp [hdrop] at hmem
  · obtain ⟨h, hrun, hevents⟩ := Machine.Run.foldlM (m := proverGeneric Unit (T := Unit))
      [.start .ready, .resolve (.commit (.ok ())), .resolve (.connect (.ok ())),
        .resolve (.handshake (.error "closed"))] .nil rfl
    refine ⟨h, _, hrun, hevents, (hleft.2 h _ hrun rfl).mpr fun p hp => ?_⟩
    have hmem := hevents ▸ List.mem_map_of_mem (f := Prod.snd) hp
    constructor
    · rintro ⟨hdrop, -⟩
      simp [hdrop] at hmem
    · rintro ⟨-, body, ⟨-, hdrop⟩ | ⟨-, -, driverRes, hdriver⟩⟩
      · simp [hdrop] at hmem
      · simp [hdriver] at hmem

/-- The verifier is dropped with its result in hand; the prover's connection dies while the
prover task is joined. -/
theorem task_left :
    (∃ h, ∃ t : VerifierState Unit, (verifier fun _ => "").Run h t ∧
      t.phase = .dropped ∧ t.world.tasks .driver = .running) ∧
    ∃ h, ∃ t : ProverState Unit Unit, (proverGeneric Unit).Run h t ∧
      t.phase = .returned (.error (driverFinishedEarly (.ok (.ok ())))) ∧
      t.world.tasks .prover = .running := by
  constructor
  · obtain ⟨h, hrun, -⟩ := Machine.Run.foldlM (m := verifier (T := Unit) fun _ => "")
      [.start .ready, .resolve (.commit (.ok (.mpc ⟨maxSentData, maxRecvData⟩))),
        .resolve (.accept (.ok ())), .resolve (.run (.ok ⟨[], []⟩)),
        .resolve (.verify (.ok ⟨true, none⟩)),
        .resolve (.acceptVerify (.ok ⟨some (.dns "example.com"), some (.unopened [] []), []⟩)),
        .resolve (.close (.ok ())), .drop] .nil rfl
    exact ⟨h, _, hrun, rfl, rfl⟩
  · obtain ⟨h, hrun, -⟩ := Machine.Run.foldlM (m := proverGeneric Unit (T := Unit))
      [.start .ready, .resolve (.commit (.ok ())), .resolve (.connect (.ok ())),
        .resolve (.handshake (.ok ())), .resolve (.sendRequest (.ok ⟨200, "200 OK"⟩)),
        .resolve (.collectBody (.ok [])), .finish .driver, .driver (.ok (.ok ()))] .nil rfl
    exact ⟨h, _, hrun, rfl, rfl⟩

end Libid.Tlsn
