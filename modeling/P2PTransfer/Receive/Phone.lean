import P2PTransfer.Receive.Pending

/-!
# Incoming transfers on the phone

`TransferService` shows each announcement to the user, waits for two minutes, and answers the
handler through `respond_to_transfer`. It keeps the directories that the user has chosen under the
ids of the transfers, and moves a file there when its completion is announced. The handlers are
those of `PENDING_REQUESTS`, with ids that their peers have chosen, and they may leave at any time.

## Main definitions

- `IncomingTransferRequest`, `Wait` — a request as it is shown, and the wait for its decision
- `State`, `Act`, `step` — the application with the handlers and the events between them
- `Fresh` — a handler registers an id that no handler has had

## Main results

- `accepted_by_user` — what holds of the answers and of the moved files in any run
- `placed_where_chosen` — which answer and which directory it is where ids are fresh
-/

namespace P2PTransfer.Incoming

open Transition Pending

/-- `FrbTransferEvent`, without the times. -/
inductive Event where
  | sendStatus
  | rejected
  | error (error : Text)
  | incoming (senderName fileName : Text) (fileSize : Nat)
  | progress (bytesTransferred total : Nat)
  | complete (filePath : Text)
  | cancelled
deriving DecidableEq

/-- An event with its id, and the handler that it comes from, which no one looks at. -/
structure Report where
  origin : Nat
  requestId : Text
  event : Event
deriving DecidableEq

structure TransferProgress where
  sessionId : Text
  fileName : Text
  bytesTransferred : Nat
  totalBytes : Nat
  isDone : Bool := false
  isError : Bool := false
  errorMessage : Option Text := none
  status : Option Text := none
deriving DecidableEq

/-- What an event makes of the entry in `_activeProgress`. -/
def TransferProgress.update (requestId : Text) (prev : Option TransferProgress) :
    Event → Option TransferProgress
  | .sendStatus => prev
  | .rejected => prev
  | .error error => some
      { sessionId := requestId, fileName := (prev.map fileName).getD requestId,
        bytesTransferred := (prev.map bytesTransferred).getD 0,
        totalBytes := (prev.map totalBytes).getD 0, isError := true, errorMessage := some error }
  | .incoming _ name fileSize => some
      { sessionId := requestId, fileName := name, bytesTransferred := 0, totalBytes := fileSize,
        status := some "incoming".toList }
  | .progress bytes total => some
      { sessionId := requestId, fileName := (prev.map fileName).getD requestId,
        bytesTransferred := bytes, totalBytes := total, status := some "transferring".toList }
  | .complete _ => some
      { sessionId := requestId, fileName := (prev.map fileName).getD requestId,
        bytesTransferred := (prev.map totalBytes).getD 0,
        totalBytes := (prev.map totalBytes).getD 0, isDone := true }
  | .cancelled => some
      { sessionId := requestId, fileName := (prev.map fileName).getD requestId,
        bytesTransferred := (prev.map bytesTransferred).getD 0,
        totalBytes := (prev.map totalBytes).getD 0, isError := true,
        errorMessage := some "Transfer cancelled by user".toList }

/-- The decision is a path or, for a request that is declined, none. -/
structure IncomingTransferRequest where
  senderIp : Text
  sessionId : Text
  fileName : Text
  fileSize : Nat
  decision : Option (Option Text) := none
deriving DecidableEq

namespace IncomingTransferRequest

/-- `_decision.complete`, unless it is completed. -/
def complete (r : IncomingTransferRequest) (value : Option Text) : IncomingTransferRequest :=
  { r with decision := some (r.decision.getD value) }

def accept (r : IncomingTransferRequest) (savePath : Text) : IncomingTransferRequest :=
  r.complete (some savePath)

def decline (r : IncomingTransferRequest) : IncomingTransferRequest := r.complete none

end IncomingTransferRequest

/-- The rest of the `incoming` callback: what `decision.timeout` has become, and the answer that
was given for it. -/
structure Wait where
  request : IncomingTransferRequest
  outcome : Option (Option Text) := none
  answer : Option Bool := none
deriving DecidableEq

/-- The future of a request that is decided completes, unless its timer was first. -/
def Wait.decide (w : Wait) (request : IncomingTransferRequest) : Wait :=
  { w with request := request, outcome := w.outcome.orElse fun _ => request.decision }

/-- A completed transfer: the path of its file, the directory that was kept for it, and where the
file was moved. -/
structure Placement where
  origin : Nat
  requestId : Text
  filePath : Text
  targetDir : Option Text
  movedTo : Option Text
deriving DecidableEq

/-- `sourceFile.uri.pathSegments.last` -/
def lastSegment (path : Text) : Text := path.rtakeWhile fun c => c ≠ '/'

/-- `targetFile.path` -/
def targetPath (targetDir filePath : Text) : Text := targetDir ++ '/' :: lastSegment filePath

/-- The requests, each under the handler that it is for; the calls of `respondToTransfer` that
are under way, and those that have come to an end. -/
structure State where
  pending : PendingRequests := {}
  announced : List Nat := []
  finished : List Nat := []
  events : List Report := []
  activeProgress : Text → Option TransferProgress := fun _ => none
  pendingSavePaths : Text → Option Text := fun _ => none
  waits : Nat → Option Wait := fun _ => none
  calls : List Nat := []
  responded : List Nat := []
  placements : List Placement := []

/-- What a handler announces. -/
structure Announcement where
  senderName : Text
  fileName : Text
  fileSize : Nat

/-- The handlers take their steps, the answers apart; they announce themselves once, and report
what becomes of a transfer. A delivery of a completion comes with whether the file is there and
can be renamed. The user decides whenever he likes. -/
inductive Act where
  | handler (a : PendingAct)
  | announce (k : Nat) (offer : Announcement)
  | report (k : Nat) (event : Event)
  | deliver (moves : Bool)
  | accept (k : Nat) (savePath : Text)
  | decline (k : Nat)
  | timeout (k : Nat)
  | resume (k : Nat)
  | call (k : Nat)

def isAnswer : PendingAct → Bool
  | .respond _ _ => true
  | _ => false

def Event.isIncoming : Event → Bool
  | .incoming _ _ _ => true
  | _ => false

def Event.isComplete : Event → Bool
  | .complete _ => true
  | _ => false

/-- What a handler may report. The file is complete in an accepted transfer only, and once. -/
def Event.permitted (status : Status) (finished : Bool) (e : Event) : Bool :=
  !e.isIncoming && (!e.isComplete || (decide (status = .answered true) && !finished))

namespace State

/-- The callback of the event stream, up to the first wait in it. -/
def handle (s : State) (r : Report) (moves : Bool) : State :=
  let progress := TransferProgress.update r.requestId (s.activeProgress r.requestId) r.event
  let s := { s with activeProgress := Function.update s.activeProgress r.requestId progress }
  match r.event with
  | .incoming senderName fileName fileSize =>
    { s with waits := Function.update s.waits r.origin (some { request :=
        { senderIp := senderName, sessionId := r.requestId, fileName := fileName,
          fileSize := fileSize } }) }
  | .complete filePath =>
    let targetDir := s.pendingSavePaths r.requestId
    { s with
      pendingSavePaths := Function.update s.pendingSavePaths r.requestId none
      placements := s.placements ++
        [{ origin := r.origin, requestId := r.requestId, filePath := filePath,
           targetDir := targetDir,
           movedTo := (targetDir.map fun dir => targetPath dir filePath).filter fun target =>
             moves && decide (filePath ≠ target) }] }
  | _ => s

def setWait (s : State) (k : Nat) (w : Wait) : State :=
  { s with waits := Function.update s.waits k (some w) }

/-- The rest of the `incoming` callback, up to the end of its call. -/
def resume (s : State) (k : Nat) (w : Wait) (savePath : Option Text) : State :=
  { s with
    waits := Function.update s.waits k (some { w with answer := some savePath.isSome })
    pendingSavePaths := match savePath with
      | some path => Function.update s.pendingSavePaths w.request.sessionId (some path)
      | none => s.pendingSavePaths
    calls := s.calls ++ [k] }

/-- `respond_to_transfer`, called for the request of `k`. -/
def respondToTransfer (s : State) (k : Nat) (requestId : Text) (accepted : Bool) : State :=
  { s with
    pending := (s.pending.respond requestId accepted).2
    calls := s.calls.erase k
    responded := s.responded ++ [k] }

def step (s : State) : Act → Option State
  | .handler a => if isAnswer a then none
      else (pendingRequests.step s.pending a).map fun pending => { s with pending := pending }
  | .announce k offer => (s.pending.receivers k).bind fun r => guarded (k ∉ s.announced)
      { s with announced := k :: s.announced, events := s.events ++ [⟨k, r.id,
          .incoming offer.senderName offer.fileName offer.fileSize⟩] }
  | .report k event => (s.pending.receivers k).bind fun r =>
      guarded (event.permitted r.status (decide (k ∈ s.finished)))
        { s with
          events := s.events ++ [⟨k, r.id, event⟩]
          finished := if event.isComplete then k :: s.finished else s.finished }
  | .deliver moves => match s.events with
      | [] => none
      | r :: events => some (({ s with events := events }).handle r moves)
  | .accept k savePath => (s.waits k).map fun w =>
      s.setWait k (w.decide (w.request.accept savePath))
  | .decline k => (s.waits k).map fun w => s.setWait k (w.decide w.request.decline)
  | .timeout k => (s.waits k).bind fun w => guarded (w.outcome = none)
      (s.setWait k { w with outcome := some none })
  | .resume k => (s.waits k).bind fun w => w.outcome.bind fun savePath =>
      guarded (w.answer = none) (s.resume k w savePath)
  | .call k => (s.waits k).bind fun w => w.answer.bind fun accepted => guarded (k ∈ s.calls)
      (s.respondToTransfer k w.request.sessionId accepted)

end State

def phone : Machine State Act := ⟨State.step⟩

/-! ### The handlers -/

section Handlers

variable {s t : PendingRequests} {a : PendingAct}

/-- What a step makes of one receiver: it stays, is new, or ceases to wait. -/
theorem receivers_cases (h : s.Kept) (hs : pendingRequests.step s a = some t) (k : Nat) :
    t.receivers k = s.receivers k ∨
    (k = s.next ∧ ∃ id, a = .register id ∧ t.receivers k = some ⟨id, .waiting⟩) ∨
    ∃ id status, s.WaitsFor id k ∧ status ≠ .waiting ∧ t.receivers k = some ⟨id, status⟩ ∧
      ∀ b, status = .answered b → a = .respond id b := by
  have hsettle : ∀ j status, status ≠ .waiting → (∀ b, status ≠ .answered b) →
      s.settle j status k = s.receivers k ∨ ∃ id, s.WaitsFor id k ∧ status ≠ .waiting ∧
        s.settle j status k = some ⟨id, status⟩ ∧
          ∀ b, status = .answered b → a = .respond id b := by
    intro j status hw ha
    refine (s.settle_cases j k status).imp id ?_
    rintro ⟨rfl, id, hid, hnew⟩
    exact ⟨id, hid, hw, hnew, fun b hb => absurd hb (ha b)⟩
  cases a with
  | register id =>
    obtain rfl := Option.some.inj hs
    by_cases hk : k = s.next
    · exact .inr (.inl ⟨hk, id, rfl, by rw [hk]; exact Function.update_self ..⟩)
    · have hnew : (s.register id).receivers k = s.dropSender (s.inner id) k :=
        Function.update_of_ne hk ..
      rw [hnew]
      cases s.inner id with
      | none => exact .inl rfl
      | some j =>
        refine (hsettle j .closed (by simp) (by simp)).imp (fun hsame => hsame) ?_
        rintro ⟨id', hid⟩
        exact .inr ⟨id', .closed, hid⟩
  | respond id b =>
    obtain rfl := Option.some.inj hs
    rcases h.respond_cases id b with ⟨-, hr⟩ | ⟨j, -, ⟨hwaits, hr⟩ | ⟨-, hr⟩⟩
    · exact .inl (by rw [hr])
    · rw [hr]
      by_cases hk : k = j
      · subst hk
        refine .inr (.inr ⟨id, .answered b, hwaits, by simp, Function.update_self .., ?_⟩)
        intro b' hb
        rw [Status.answered.inj hb]
      · exact .inl (Function.update_of_ne hk ..)
    · exact .inl (by rw [hr])
  | timeout j =>
    obtain ⟨-, rfl⟩ := guarded_eq_some.mp hs
    refine (hsettle j .timedOut (by simp) (by simp)).imp id ?_
    rintro ⟨id', hid⟩
    exact .inr ⟨id', .timedOut, hid⟩
  | drop j =>
    obtain ⟨-, rfl⟩ := guarded_eq_some.mp hs
    refine (hsettle j .dropped (by simp) (by simp)).imp id ?_
    rintro ⟨id', hid⟩
    exact .inr ⟨id', .dropped, hid⟩

/-- No receiver changes its id, and none changes its status but one that waits. -/
theorem receivers_step (h : s.Kept) (hs : pendingRequests.step s a = some t) {k : Nat} {id : Text}
    {status : Status} (hk : s.receivers k = some ⟨id, status⟩) :
    ∃ later, t.receivers k = some ⟨id, later⟩ ∧ (status = .waiting ∨ later = status) := by
  rcases receivers_cases h hs k with hsame | ⟨rfl, -⟩ | ⟨id', later, hwaits, -, hnew, -⟩
  · exact ⟨status, hsame.trans hk, .inr rfl⟩
  · rw [h.fresh s.next le_rfl] at hk
    cases hk
  · obtain ⟨rfl, hstatus⟩ := PendingRequests.receiver_unique hwaits hk
    exact ⟨later, hnew, .inl hstatus.symm⟩

theorem answered_step (h : s.Kept) (hs : pendingRequests.step s a = some t) {k : Nat} {id : Text}
    {b : Bool} (hk : t.receivers k = some ⟨id, .answered b⟩) :
    s.receivers k = some ⟨id, .answered b⟩ ∨ a = .respond id b := by
  rcases receivers_cases h hs k with hsame | ⟨-, id', -, hnew⟩ | ⟨id', later, -, -, hnew, hanswer⟩
  · exact .inl (hsame.symm.trans hk)
  · cases (PendingRequests.receiver_unique hnew hk).2
  · obtain ⟨rfl, rfl⟩ := PendingRequests.receiver_unique hnew hk
    exact .inr (hanswer b rfl)

/-- Who waits after a step has waited before it, or is new. -/
theorem waitsFor_step (h : s.Kept) (hs : pendingRequests.step s a = some t) {k : Nat} {id : Text}
    (hk : t.WaitsFor id k) : s.WaitsFor id k ∨ (k = s.next ∧ a = .register id) := by
  rcases receivers_cases h hs k with hsame | ⟨rfl, id', ha, hnew⟩ | ⟨id', later, -, hne, hnew, -⟩
  · exact .inl (hsame.symm.trans hk)
  · obtain ⟨rfl, -⟩ := PendingRequests.receiver_unique hnew hk
    exact .inr ⟨rfl, ha⟩
  · exact absurd (PendingRequests.receiver_unique hnew hk).2 hne

/-- An answer leaves nobody who waits for it. -/
theorem not_waitsFor_respond (h : s.Kept) (id : Text) (b : Bool) (k : Nat) :
    ¬ (s.respond id b).2.WaitsFor id k := by
  intro hk
  have hentry := (h.respond id b).waiting id k hk
  rcases h.respond_cases id b with ⟨hnone, hr⟩ | ⟨j, -, ⟨-, hr⟩ | ⟨-, hr⟩⟩
  · rw [hr, hnone] at hentry
    cases hentry
  · rw [hr] at hentry
    simp at hentry
  · rw [hr] at hentry
    simp at hentry

end Handlers

/-! ### A run -/

/-- A request with the id has been accepted with the directory `dir`, and the handler called. -/
def State.Chosen (s : State) (id dir : Text) : Prop :=
  ∃ k w, s.waits k = some w ∧ w.request.sessionId = id ∧ w.outcome = some (some dir) ∧
    w.answer.isSome

/-- A request with the id has been answered, and the call has come to its end. -/
def State.Answers (s : State) (id : Text) (b : Bool) : Prop :=
  ∃ k w, s.waits k = some w ∧ w.request.sessionId = id ∧ w.answer = some b ∧ k ∈ s.responded

/-- What holds in every run. -/
structure Kept (s : State) : Prop where
  handlers : s.pending.Kept
  announced : ∀ k ∈ s.announced, ∃ id status, s.pending.receivers k = some ⟨id, status⟩
  -- an announcement on its way has not been shown, and there is one for each handler
  once : ((s.events.filter fun r => r.event.isIncoming).map Report.origin).Nodup
  shown : ∀ r ∈ s.events, r.event.isIncoming → s.waits r.origin = none ∧ r.origin ∈ s.announced
  queued : ∀ r ∈ s.events, ∃ status, s.pending.receivers r.origin = some ⟨r.requestId, status⟩
  request : ∀ k w, s.waits k = some w → k ∈ s.announced ∧
    ∃ status, s.pending.receivers k = some ⟨w.request.sessionId, status⟩
  outcome : ∀ k w dir, s.waits k = some w → w.outcome = some (some dir) →
    w.request.decision = some (some dir)
  answer : ∀ k w b, s.waits k = some w → w.answer = some b →
    ∃ savePath, w.outcome = some savePath ∧ b = savePath.isSome
  called : (s.calls ++ s.responded).Nodup
  calls : ∀ k, k ∈ s.calls ++ s.responded ↔ ∃ w, s.waits k = some w ∧ w.answer.isSome
  paths : ∀ id dir, s.pendingSavePaths id = some dir → s.Chosen id dir
  answered : ∀ k id b, s.pending.receivers k = some ⟨id, .answered b⟩ → s.Answers id b
  placed : ∀ m ∈ s.placements, ∀ dir, m.targetDir = some dir → s.Chosen m.requestId dir
  moved : ∀ m ∈ s.placements, ∀ target, m.movedTo = some target →
    ∃ dir, m.targetDir = some dir ∧ target = targetPath dir m.filePath
  settled : ∀ k ∈ s.responded, ∀ id, ¬ s.pending.WaitsFor id k
  awaited : ∀ k ∈ s.announced,
    (∃ r ∈ s.events, r.origin = k ∧ r.event.isIncoming) ∨ ∃ w, s.waits k = some w

theorem update_cases {waits : Nat → Option Wait} {j k : Nat} {u w : Wait}
    (h : Function.update waits k (some w) j = some u) :
    (j ≠ k ∧ waits j = some u) ∨ (j = k ∧ u = w) := by
  by_cases hj : j = k
  · subst hj
    rw [Function.update_self] at h
    exact .inr ⟨rfl, (Option.some.inj h).symm⟩
  · rw [Function.update_of_ne hj] at h
    exact .inl ⟨hj, h⟩

/-- What a wait has come to stays. -/
structure Wait.Later (v w : Wait) : Prop where
  id : w.request.sessionId = v.request.sessionId
  outcome : ∀ savePath, v.outcome = some savePath → w.outcome = some savePath
  answer : ∀ b, v.answer = some b → w.answer = some b

theorem Wait.Later.refl (v : Wait) : v.Later v := ⟨rfl, fun _ h => h, fun _ h => h⟩

/-- The waits of one state go on in another one. -/
def State.Grows (s t : State) : Prop :=
  ∀ k v, s.waits k = some v → ∃ w, t.waits k = some w ∧ v.Later w

section Grows

variable {s t : State} {k : Nat} {v w : Wait}

theorem State.Grows.of_eq (h : t.waits = s.waits) : s.Grows t :=
  fun _ v hv => ⟨v, h ▸ hv, .refl v⟩

theorem State.Grows.update (hv : s.waits k = some v) (hlater : v.Later w)
    (ht : t.waits = Function.update s.waits k (some w)) : s.Grows t := by
  intro j u hu
  by_cases hj : j = k
  · subst hj
    obtain rfl := Option.some.inj (hv.symm.trans hu)
    exact ⟨w, by rw [ht, Function.update_self], hlater⟩
  · exact ⟨u, by rw [ht, Function.update_of_ne hj, hu], .refl u⟩

theorem State.Grows.new (hk : s.waits k = none)
    (ht : t.waits = Function.update s.waits k (some w)) : s.Grows t := by
  intro j u hu
  have hj : j ≠ k := by
    rintro rfl
    rw [hk] at hu
    cases hu
  exact ⟨u, by rw [ht, Function.update_of_ne hj, hu], .refl u⟩

theorem State.Grows.of_some (h : s.Grows t) (hs : ∃ w, s.waits k = some w) :
    ∃ w, t.waits k = some w := by
  obtain ⟨v, hv⟩ := hs
  obtain ⟨w, hw, -⟩ := h k v hv
  exact ⟨w, hw⟩

theorem State.Grows.chosen (h : s.Grows t) {id dir : Text} (hs : s.Chosen id dir) :
    t.Chosen id dir := by
  obtain ⟨k, v, hv, hid, hout, hans⟩ := hs
  obtain ⟨w, hw, hlater⟩ := h k v hv
  obtain ⟨b, hb⟩ := Option.isSome_iff_exists.mp hans
  exact ⟨k, w, hw, hlater.id.trans hid, hlater.outcome _ hout, by rw [hlater.answer b hb]; rfl⟩

theorem State.Grows.answers (h : s.Grows t) (hresponded : s.responded ⊆ t.responded) {id : Text}
    {b : Bool} (hs : s.Answers id b) : t.Answers id b := by
  obtain ⟨k, v, hv, hid, hans, hk⟩ := hs
  obtain ⟨w, hw, hlater⟩ := h k v hv
  exact ⟨k, w, hw, hlater.id.trans hid, hlater.answer b hans, hresponded hk⟩

end Grows

section Steps

variable {s : State}

theorem Kept.start : Kept {} := by
  constructor
  case handlers => exact PendingRequests.Kept.start
  all_goals simp

/-- The handlers keep their ids. -/
theorem Kept.receivers (h : Kept s) {a : PendingAct} {p : PendingRequests}
    (hs : pendingRequests.step s.pending a = some p) {k : Nat} {id : Text}
    (hk : ∃ status, s.pending.receivers k = some ⟨id, status⟩) :
    ∃ status, p.receivers k = some ⟨id, status⟩ := by
  obtain ⟨status, hstatus⟩ := hk
  obtain ⟨later, hlater, -⟩ := receivers_step h.handlers hs hstatus
  exact ⟨later, hlater⟩

theorem Kept.of_responded (h : Kept s) {k : Nat} (hk : k ∈ s.responded) : k ∈ s.announced := by
  obtain ⟨w, hw, -⟩ := (h.calls k).mp (List.mem_append_right _ hk)
  exact (h.request k w hw).1

/-- A handler that has announced itself and waits after a step has waited before it. -/
theorem Kept.waitsFor (h : Kept s) {a : PendingAct} {p : PendingRequests}
    (hs : pendingRequests.step s.pending a = some p) {k : Nat} {id : Text}
    (hk : k ∈ s.announced) (hwaits : p.WaitsFor id k) : s.pending.WaitsFor id k := by
  refine (waitsFor_step h.handlers hs hwaits).resolve_right ?_
  rintro ⟨rfl, -⟩
  obtain ⟨id', status, hstatus⟩ := h.announced _ hk
  rw [h.handlers.fresh _ le_rfl] at hstatus
  cases hstatus

theorem Kept.handler (h : Kept s) {a : PendingAct} {p : PendingRequests}
    (hs : pendingRequests.step s.pending a = some p) (ha : isAnswer a = false) :
    Kept { s with pending := p } := by
  have hgrows : s.Grows { s with pending := p } := .of_eq rfl
  exact { h with
    handlers := h.handlers.step hs
    announced := fun k hk => by
      obtain ⟨id, hid⟩ := h.announced k hk
      exact ⟨id, h.receivers hs hid⟩
    queued := fun r hr => h.receivers hs (h.queued r hr)
    request := fun k w hw => ⟨(h.request k w hw).1, h.receivers hs (h.request k w hw).2⟩
    answered := fun k id b hk => by
      refine hgrows.answers (List.Subset.refl _) (h.answered k id b ?_)
      refine (answered_step h.handlers hs hk).resolve_right ?_
      rintro rfl
      cases ha
    settled := fun k hk id hwaits => h.settled k hk id (h.waitsFor hs (h.of_responded hk) hwaits) }

theorem Kept.call (h : Kept s) {k : Nat} {w : Wait} {b : Bool} (hw : s.waits k = some w)
    (hb : w.answer = some b) (hk : k ∈ s.calls) :
    Kept (s.respondToTransfer k w.request.sessionId b) := by
  have hs : pendingRequests.step s.pending (.respond w.request.sessionId b) =
      some (s.pending.respond w.request.sessionId b).2 := rfl
  have hgrows : s.Grows (s.respondToTransfer k w.request.sessionId b) := .of_eq rfl
  have hperm : (s.calls ++ s.responded).Perm (s.calls.erase k ++ (s.responded ++ [k])) := by
    rw [← List.append_assoc]
    refine ((List.perm_cons_erase hk).append_right s.responded).trans ?_
    exact @List.perm_append_comm _ [k] _
  exact { h with
    handlers := h.handlers.step hs
    announced := fun j hj => by
      obtain ⟨id, hid⟩ := h.announced j hj
      exact ⟨id, h.receivers hs hid⟩
    queued := fun r hr => h.receivers hs (h.queued r hr)
    request := fun j v hv => ⟨(h.request j v hv).1, h.receivers hs (h.request j v hv).2⟩
    called := hperm.nodup_iff.mp h.called
    calls := fun j => hperm.mem_iff.symm.trans (h.calls j)
    answered := fun j id b' hj => by
      rcases answered_step h.handlers hs hj with hold | hnew
      · exact hgrows.answers (List.subset_append_left _ _) (h.answered j id b' hold)
      · obtain ⟨rfl, rfl⟩ := PendingAct.respond.inj hnew
        exact ⟨k, w, hw, rfl, hb, List.mem_append_right _ (List.mem_singleton_self k)⟩
    settled := fun j hj id hwaits => by
      cases List.mem_append.mp hj with
      | inl hj => exact h.settled j hj id (h.waitsFor hs (h.of_responded hj) hwaits)
      | inr hj =>
        obtain rfl := List.mem_singleton.mp hj
        obtain ⟨hann, status, hstatus⟩ := h.request j w hw
        obtain ⟨rfl, -⟩ := PendingRequests.receiver_unique (h.waitsFor hs hann hwaits) hstatus
        exact not_waitsFor_respond h.handlers _ b j hwaits }

theorem Kept.announce (h : Kept s) {k : Nat} {r : Receiver} (hr : s.pending.receivers k = some r)
    (hk : k ∉ s.announced) {e : Event} (he : e.isIncoming) :
    Kept { s with announced := k :: s.announced, events := s.events ++ [⟨k, r.id, e⟩] } := by
  have hnone : s.waits k = none := by
    by_contra hne
    obtain ⟨w, hw⟩ := Option.ne_none_iff_exists'.mp hne
    exact hk (h.request k w hw).1
  exact { h with
    announced := by
      intro j hj
      cases List.mem_cons.mp hj with
      | inl hj => exact ⟨r.id, r.status, hj ▸ hr⟩
      | inr hj => exact h.announced j hj
    once := by
      rw [List.filter_append, List.map_append, List.nodup_append]
      refine ⟨h.once, by simp [he], fun j hj j' hj' => ?_⟩
      obtain ⟨r', hr', rfl⟩ := List.mem_map.mp hj
      obtain ⟨hmem, hinc⟩ := List.mem_filter.mp hr'
      have hold : r'.origin ∈ s.announced := (h.shown r' hmem hinc).2
      have hnew : j' = k := by simpa [he] using hj'
      rw [hnew]
      rintro rfl
      exact hk hold
    shown := by
      intro r' hr' hinc
      cases List.mem_append.mp hr' with
      | inl hr' => exact ⟨(h.shown r' hr' hinc).1, List.mem_cons_of_mem _ (h.shown r' hr' hinc).2⟩
      | inr hr' =>
        obtain rfl := List.mem_singleton.mp hr'
        exact ⟨hnone, List.mem_cons_self⟩
    queued := by
      intro r' hr'
      cases List.mem_append.mp hr' with
      | inl hr' => exact h.queued r' hr'
      | inr hr' =>
        obtain rfl := List.mem_singleton.mp hr'
        exact ⟨r.status, hr⟩
    request := fun j w hw => ⟨List.mem_cons_of_mem _ (h.request j w hw).1, (h.request j w hw).2⟩
    awaited := by
      intro j hj
      cases List.mem_cons.mp hj with
      | inl hj =>
        exact .inl ⟨_, List.mem_append_right _ (List.mem_singleton_self _), hj.symm, he⟩
      | inr hj =>
        refine (h.awaited j hj).imp ?_ fun hw => hw
        rintro ⟨r', hr', hinc⟩
        exact ⟨r', List.mem_append_left _ hr', hinc⟩ }

theorem Kept.report (h : Kept s) {k : Nat} {r : Receiver} (hr : s.pending.receivers k = some r)
    {e : Event} (he : e.isIncoming = false) (finished : List Nat) :
    Kept { s with events := s.events ++ [⟨k, r.id, e⟩], finished := finished } := by
  have hold : ∀ r' ∈ s.events ++ [⟨k, r.id, e⟩], r'.event.isIncoming → r' ∈ s.events := by
    intro r' hr' hinc
    refine (List.mem_append.mp hr').resolve_right fun hnew => ?_
    obtain rfl := List.mem_singleton.mp hnew
    exact Bool.false_ne_true (he.symm.trans hinc)
  exact { h with
    once := by
      rw [List.filter_append, List.filter_singleton, he]
      simpa using h.once
    shown := fun r' hr' hinc => h.shown r' (hold r' hr' hinc) hinc
    queued := by
      intro r' hr'
      cases List.mem_append.mp hr' with
      | inl hr' => exact h.queued r' hr'
      | inr hr' =>
        obtain rfl := List.mem_singleton.mp hr'
        exact ⟨r.status, hr⟩
    awaited := by
      intro j hj
      refine (h.awaited j hj).imp ?_ fun hw => hw
      rintro ⟨r', hr', hinc⟩
      exact ⟨r', List.mem_append_left _ hr', hinc⟩ }

/-- An announcement is shown. -/
theorem Kept.show (h : Kept s) {r : Report} {events : List Report} (hs : s.events = r :: events)
    (hr : r.event.isIncoming) {request : IncomingTransferRequest}
    (hid : request.sessionId = r.requestId) :
    Kept { s with
      events := events
      waits := Function.update s.waits r.origin (some { request }) } := by
  have hmem : r ∈ s.events := hs ▸ List.mem_cons_self
  obtain ⟨hnone, hannounced⟩ := h.shown r hmem hr
  have honce := h.once
  rw [hs, List.filter_cons_of_pos (by exact hr), List.map_cons, List.nodup_cons] at honce
  have hother : ∀ r' ∈ events, r'.event.isIncoming → r'.origin ≠ r.origin := by
    intro r' hr' hinc he
    exact honce.1 (he ▸ List.mem_map_of_mem (List.mem_filter.mpr ⟨hr', hinc⟩))
  have hgrows : s.Grows { s with
      events := events, waits := Function.update s.waits r.origin (some { request }) } :=
    .new hnone rfl
  have hold : ∀ k w, Function.update s.waits r.origin (some { request }) k = some w →
      s.waits k = some w ∨ (k = r.origin ∧ w = { request }) :=
    fun k w hw => (update_cases hw).imp And.right fun hnew => hnew
  exact { h with
    once := honce.2
    shown := by
      intro r' hr' hinc
      have hne := hother r' hr' hinc
      obtain ⟨hnone', hann⟩ := h.shown r' (hs ▸ List.mem_cons_of_mem _ hr') hinc
      exact ⟨(Function.update_of_ne hne ..).trans hnone', hann⟩
    queued := fun r' hr' => h.queued r' (hs ▸ List.mem_cons_of_mem _ hr')
    request := by
      intro k w hw
      cases hold k w hw with
      | inl hw => exact h.request k w hw
      | inr hnew =>
        obtain ⟨rfl, rfl⟩ := hnew
        exact ⟨hannounced, hid ▸ h.queued r hmem⟩
    outcome := by
      intro k w dir hw hout
      cases hold k w hw with
      | inl hw => exact h.outcome k w dir hw hout
      | inr hnew =>
        obtain ⟨rfl, rfl⟩ := hnew
        cases hout
    answer := by
      intro k w b hw hb
      cases hold k w hw with
      | inl hw => exact h.answer k w b hw hb
      | inr hnew =>
        obtain ⟨rfl, rfl⟩ := hnew
        cases hb
    calls := by
      intro k
      rw [h.calls k]
      constructor
      · rintro ⟨w, hw, hans⟩
        have hk : k ≠ r.origin := by
          rintro rfl
          rw [hnone] at hw
          cases hw
        exact ⟨w, (Function.update_of_ne hk ..).trans hw, hans⟩
      · rintro ⟨w, hw, hans⟩
        cases hold k w hw with
        | inl hw => exact ⟨w, hw, hans⟩
        | inr hnew =>
          obtain ⟨rfl, rfl⟩ := hnew
          cases hans
    paths := fun id dir hp => hgrows.chosen (h.paths id dir hp)
    answered := fun k id b hk => hgrows.answers (List.Subset.refl _) (h.answered k id b hk)
    placed := fun m hm dir hdir => hgrows.chosen (h.placed m hm dir hdir)
    awaited := by
      intro k hk
      by_cases hkr : k = r.origin
      · subst hkr
        exact .inr ⟨_, Function.update_self ..⟩
      · refine (h.awaited k hk).imp ?_ ?_
        · rintro ⟨r', hr', horigin, hinc⟩
          rw [hs] at hr'
          refine ⟨r', (List.mem_cons.mp hr').resolve_left ?_, horigin, hinc⟩
          rintro rfl
          exact hkr horigin.symm
        · rintro ⟨w, hw⟩
          exact ⟨w, (Function.update_of_ne hkr ..).trans hw⟩ }

/-- Another event is taken. -/
theorem Kept.take (h : Kept s) {r : Report} {events : List Report} (hs : s.events = r :: events)
    (hr : r.event.isIncoming = false) : Kept { s with events := events } := by
  have hsub : ∀ r' ∈ events, r' ∈ s.events := fun r' hr' => hs ▸ List.mem_cons_of_mem _ hr'
  exact { h with
    once := by
      have honce := h.once
      rwa [hs, List.filter_cons_of_neg (by simp [hr])] at honce
    shown := fun r' hr' => h.shown r' (hsub r' hr')
    queued := fun r' hr' => h.queued r' (hsub r' hr')
    awaited := by
      intro k hk
      refine (h.awaited k hk).imp ?_ fun hw => hw
      rintro ⟨r', hr', horigin, hinc⟩
      rw [hs] at hr'
      refine ⟨r', (List.mem_cons.mp hr').resolve_left ?_, horigin, hinc⟩
      rintro rfl
      exact Bool.false_ne_true (hr.symm.trans hinc) }

/-- The directory of a completed transfer leaves the map. -/
theorem Kept.place (h : Kept s) {m : Placement} (hm : m.targetDir = s.pendingSavePaths m.requestId)
    (hmoved : ∀ target, m.movedTo = some target →
      ∃ dir, m.targetDir = some dir ∧ target = targetPath dir m.filePath) :
    Kept { s with
      pendingSavePaths := Function.update s.pendingSavePaths m.requestId none
      placements := s.placements ++ [m] } :=
  { h with
    paths := by
      intro id dir hp
      have hp : Function.update s.pendingSavePaths m.requestId none id = some dir := hp
      by_cases hid : id = m.requestId
      · subst hid
        rw [Function.update_self] at hp
        cases hp
      · rw [Function.update_of_ne hid] at hp
        exact h.paths id dir hp
    placed := by
      intro m' hm' dir hdir
      cases List.mem_append.mp hm' with
      | inl hm' => exact h.placed m' hm' dir hdir
      | inr hm' =>
        obtain rfl := List.mem_singleton.mp hm'
        exact h.paths _ dir (hm ▸ hdir)
    moved := by
      intro m' hm'
      cases List.mem_append.mp hm' with
      | inl hm' => exact h.moved m' hm'
      | inr hm' => exact List.mem_singleton.mp hm' ▸ hmoved }

/-- A wait goes on, without an answer of its own. -/
theorem Kept.setWait (h : Kept s) {k : Nat} {v w : Wait} (hv : s.waits k = some v)
    (hlater : v.Later w) (hanswer : w.answer = v.answer)
    (hdecision : ∀ dir, w.outcome = some (some dir) → w.request.decision = some (some dir)) :
    Kept (s.setWait k w) := by
  have hgrows : s.Grows (s.setWait k w) := .update hv hlater rfl
  have hold : ∀ j u, (s.setWait k w).waits j = some u → s.waits j = some u ∨ (j = k ∧ u = w) :=
    fun j u hu => (update_cases hu).imp And.right fun hnew => hnew
  have hanswers : ∀ j, (∃ u, s.waits j = some u ∧ u.answer.isSome) ↔
      ∃ u, (s.setWait k w).waits j = some u ∧ u.answer.isSome := by
    intro j
    by_cases hj : j = k
    · subst hj
      have hw : (s.setWait j w).waits j = some w := Function.update_self ..
      rw [hv, hw]
      simp [hanswer]
    · have hsame : (s.setWait k w).waits j = s.waits j := Function.update_of_ne hj ..
      rw [hsame]
  exact { h with
    shown := by
      intro r hr hinc
      obtain ⟨hnone, hann⟩ := h.shown r hr hinc
      have hne : r.origin ≠ k := by
        rintro he
        rw [he, hv] at hnone
        cases hnone
      exact ⟨(Function.update_of_ne hne ..).trans hnone, hann⟩
    request := by
      intro j u hu
      cases hold j u hu with
      | inl hu => exact h.request j u hu
      | inr hnew =>
        obtain ⟨rfl, rfl⟩ := hnew
        rw [hlater.id]
        exact h.request j v hv
    outcome := by
      intro j u dir hu hout
      cases hold j u hu with
      | inl hu => exact h.outcome j u dir hu hout
      | inr hnew =>
        obtain ⟨rfl, rfl⟩ := hnew
        exact hdecision dir hout
    answer := by
      intro j u b hu hb
      cases hold j u hu with
      | inl hu => exact h.answer j u b hu hb
      | inr hnew =>
        obtain ⟨rfl, rfl⟩ := hnew
        obtain ⟨savePath, hout, hb'⟩ := h.answer j v b hv (hanswer ▸ hb)
        exact ⟨savePath, hlater.outcome _ hout, hb'⟩
    calls := fun j => (h.calls j).trans (hanswers j)
    paths := fun id dir hp => hgrows.chosen (h.paths id dir hp)
    answered := fun j id b hj => hgrows.answers (List.Subset.refl _) (h.answered j id b hj)
    placed := fun m hm dir hdir => hgrows.chosen (h.placed m hm dir hdir)
    awaited := fun j hj => (h.awaited j hj).imp (fun hr => hr) fun hw => hgrows.of_some hw }

/-- A decision changes no outcome. -/
theorem Wait.later_decide (w : Wait) (value : Option Text) :
    w.Later (w.decide (w.request.complete value)) := by
  refine ⟨rfl, fun savePath hout => ?_, fun b hb => hb⟩
  show (w.outcome.orElse _) = some savePath
  rw [hout]
  rfl

/-- A request that is decided. -/
theorem Kept.decided (h : Kept s) {k : Nat} {w : Wait} (hw : s.waits k = some w)
    (value : Option Text) : Kept (s.setWait k (w.decide (w.request.complete value))) := by
  refine h.setWait hw (w.later_decide value) rfl ?_
  intro dir hout
  have hout : (w.outcome.orElse fun _ => some (w.request.decision.getD value)) =
      some (some dir) := hout
  show some (w.request.decision.getD value) = some (some dir)
  cases hold : w.outcome with
  | none =>
    rw [hold] at hout
    exact hout
  | some savePath =>
    rw [hold] at hout
    have hdecision := h.outcome k w dir hw (hold.trans hout)
    rw [hdecision]
    rfl

theorem Kept.resume (h : Kept s) {k : Nat} {w : Wait} {savePath : Option Text}
    (hw : s.waits k = some w) (hout : w.outcome = some savePath) (hans : w.answer = none) :
    Kept (s.resume k w savePath) := by
  have hlater : w.Later { w with answer := some savePath.isSome } := by
    refine ⟨rfl, fun _ hout => hout, fun b hb => ?_⟩
    rw [hans] at hb
    cases hb
  have hgrows : s.Grows (s.resume k w savePath) := .update hw hlater rfl
  have hself : (s.resume k w savePath).waits k = some { w with answer := some savePath.isSome } :=
    Function.update_self ..
  have hother : ∀ j, j ≠ k → (s.resume k w savePath).waits j = s.waits j :=
    fun j hj => Function.update_of_ne hj ..
  have hfresh : k ∉ s.calls ++ s.responded := by
    rw [h.calls k]
    rintro ⟨w', hw', hans'⟩
    obtain rfl := Option.some.inj (hw.symm.trans hw')
    rw [hans] at hans'
    cases hans'
  have hold : ∀ j u, (s.resume k w savePath).waits j = some u →
      (j ≠ k ∧ s.waits j = some u) ∨ (j = k ∧ u = { w with answer := some savePath.isSome }) :=
    fun j u hu => update_cases hu
  have hperm : (s.calls ++ [k] ++ s.responded).Perm (k :: (s.calls ++ s.responded)) := by
    rw [List.append_assoc]
    exact List.perm_middle
  exact { h with
    shown := by
      intro r hr hinc
      obtain ⟨hnone, hann⟩ := h.shown r hr hinc
      have hne : r.origin ≠ k := by
        rintro he
        rw [he, hw] at hnone
        cases hnone
      exact ⟨(hother _ hne).trans hnone, hann⟩
    request := by
      intro j u hu
      cases hold j u hu with
      | inl hu => exact h.request j u hu.2
      | inr hnew =>
        obtain ⟨rfl, rfl⟩ := hnew
        exact h.request j w hw
    outcome := by
      intro j u dir hu hdir
      cases hold j u hu with
      | inl hu => exact h.outcome j u dir hu.2 hdir
      | inr hnew =>
        obtain ⟨rfl, rfl⟩ := hnew
        exact h.outcome j w dir hw hdir
    answer := by
      intro j u b hu hb
      cases hold j u hu with
      | inl hu => exact h.answer j u b hu.2 hb
      | inr hnew =>
        obtain ⟨rfl, rfl⟩ := hnew
        exact ⟨savePath, hout, (Option.some.inj hb).symm⟩
    called := hperm.nodup_iff.mpr (List.nodup_cons.mpr ⟨hfresh, h.called⟩)
    calls := by
      intro j
      refine hperm.mem_iff.trans ?_
      rw [List.mem_cons, h.calls j]
      by_cases hj : j = k
      · subst hj
        exact iff_of_true (.inl rfl) ⟨_, hself, rfl⟩
      · rw [hother j hj]
        exact or_iff_right hj
    paths := by
      intro id dir hp
      cases savePath with
      | none => exact hgrows.chosen (h.paths id dir hp)
      | some path =>
        have hp : Function.update s.pendingSavePaths w.request.sessionId (some path) id =
            some dir := hp
        by_cases hid : id = w.request.sessionId
        · subst hid
          rw [Function.update_self] at hp
          obtain rfl := Option.some.inj hp
          exact ⟨k, _, hself, rfl, hout, rfl⟩
        · rw [Function.update_of_ne hid] at hp
          exact hgrows.chosen (h.paths id dir hp)
    answered := fun j id b hj => hgrows.answers (List.Subset.refl _) (h.answered j id b hj)
    placed := fun m hm dir hdir => hgrows.chosen (h.placed m hm dir hdir)
    awaited := fun j hj => (h.awaited j hj).imp (fun hr => hr) fun hw => hgrows.of_some hw }

theorem Kept.handle (h : Kept s) {r : Report} {events : List Report} (hs : s.events = r :: events)
    (moves : Bool) : Kept (({ s with events := events } : State).handle r moves) := by
  obtain ⟨origin, requestId, event⟩ := r
  cases event with
  | incoming senderName fileName fileSize =>
    let request : IncomingTransferRequest :=
      { senderIp := senderName, sessionId := requestId, fileName := fileName, fileSize := fileSize }
    have hshown := h.show hs rfl (rfl : request.sessionId = _)
    exact { hshown with }
  | complete filePath =>
    let targetDir := s.pendingSavePaths requestId
    let m : Placement :=
      { origin := origin, requestId := requestId, filePath := filePath, targetDir := targetDir,
        movedTo := (targetDir.map fun dir => targetPath dir filePath).filter fun target =>
          moves && decide (filePath ≠ target) }
    have hmoved : ∀ target, m.movedTo = some target →
        ∃ dir, m.targetDir = some dir ∧ target = targetPath dir m.filePath := by
      intro target htarget
      obtain ⟨hmap, -⟩ := Option.filter_eq_some_iff.mp htarget
      obtain ⟨dir, hdir, rfl⟩ := Option.map_eq_some_iff.mp hmap
      exact ⟨dir, hdir, rfl⟩
    have hplaced := (h.take hs rfl).place (m := m) rfl hmoved
    exact { hplaced with }
  | _ => exact { h.take hs rfl with }

theorem Kept.step {t : State} {a : Act} (h : Kept s) (hs : phone.step s a = some t) : Kept t := by
  cases a with
  | handler a =>
    cases ha : isAnswer a with
    | true =>
      have hs : State.step s (.handler a) = some t := hs
      rw [State.step, if_pos ha] at hs
      cases hs
    | false =>
      have hs : State.step s (.handler a) = some t := hs
      rw [State.step, ha, if_neg Bool.false_ne_true] at hs
      obtain ⟨p, hp, rfl⟩ := Option.map_eq_some_iff.mp hs
      exact h.handler hp ha
  | announce k offer =>
    obtain ⟨r, hr, hg⟩ := Option.bind_eq_some_iff.mp hs
    obtain ⟨hk, rfl⟩ := guarded_eq_some.mp hg
    exact h.announce hr hk rfl
  | report k event =>
    obtain ⟨r, hr, hg⟩ := Option.bind_eq_some_iff.mp hs
    obtain ⟨hpermitted, rfl⟩ := guarded_eq_some.mp hg
    have hinc : event.isIncoming = false := by
      simpa using (Bool.and_eq_true_iff.mp hpermitted).1
    exact h.report hr hinc _
  | deliver moves =>
    cases hevents : s.events with
    | nil =>
      simp only [phone, State.step, hevents] at hs
      cases hs
    | cons r events =>
      simp only [phone, State.step, hevents] at hs
      obtain rfl := Option.some.inj hs
      exact h.handle hevents moves
  | accept k savePath =>
    obtain ⟨w, hw, rfl⟩ := Option.map_eq_some_iff.mp hs
    exact h.decided hw _
  | decline k =>
    obtain ⟨w, hw, rfl⟩ := Option.map_eq_some_iff.mp hs
    exact h.decided hw _
  | timeout k =>
    obtain ⟨w, hw, hg⟩ := Option.bind_eq_some_iff.mp hs
    obtain ⟨hnone, rfl⟩ := guarded_eq_some.mp hg
    refine h.setWait hw ⟨rfl, fun savePath hout => ?_, fun b hb => hb⟩ rfl (by simp)
    rw [hnone] at hout
    cases hout
  | resume k =>
    obtain ⟨w, hw, hg⟩ := Option.bind_eq_some_iff.mp hs
    obtain ⟨savePath, hout, hg⟩ := Option.bind_eq_some_iff.mp hg
    obtain ⟨hans, rfl⟩ := guarded_eq_some.mp hg
    exact h.resume hw hout hans
  | call k =>
    obtain ⟨w, hw, hg⟩ := Option.bind_eq_some_iff.mp hs
    obtain ⟨b, hb, hg⟩ := Option.bind_eq_some_iff.mp hg
    obtain ⟨hk, rfl⟩ := guarded_eq_some.mp hg
    exact h.call hw hb hk

theorem kept_of_reach {ok : State → Act → Prop} (h : phone.Reach ok {} s) : Kept s :=
  h.invariant .start fun _ _ _ hk _ hs => hk.step hs

end Steps

/-- The steps of the application that neither the user nor a handler has to take. -/
def Act.internal : Act → Bool
  | .deliver _ | .timeout _ | .resume _ | .call _ => true
  | _ => false

/-- When nothing is left to do, every announcement has been shown and answered. -/
theorem Kept.all_responded {s : State} (h : Kept s)
    (hidle : ∀ a : Act, a.internal → phone.step s a = none) :
    ∀ k ∈ s.announced, k ∈ s.responded := by
  intro k hk
  have hevents : s.events = [] := by
    cases hevents : s.events with
    | nil => rfl
    | cons r events =>
      have hnone := hidle (.deliver false) rfl
      simp [phone, State.step, hevents] at hnone
  have hshown : ∃ w, s.waits k = some w := by
    refine (h.awaited k hk).resolve_left ?_
    rintro ⟨r, hr, -⟩
    rw [hevents] at hr
    cases hr
  obtain ⟨w, hw⟩ := hshown
  have hout : w.outcome ≠ none := by
    intro hout
    have hnone := hidle (.timeout k) rfl
    simp [phone, State.step, hw, hout, guarded] at hnone
  obtain ⟨savePath, hout⟩ := Option.ne_none_iff_exists'.mp hout
  have hans : w.answer ≠ none := by
    intro hans
    have hnone := hidle (.resume k) rfl
    simp [phone, State.step, hw, hout, hans, guarded] at hnone
  obtain ⟨b, hans⟩ := Option.ne_none_iff_exists'.mp hans
  have hcall : k ∉ s.calls := by
    intro hcall
    have hnone := hidle (.call k) rfl
    simp [phone, State.step, hw, hans, hcall, guarded] at hnone
  have hmem := (h.calls k).mpr ⟨w, hw, by rw [hans]; rfl⟩
  exact (List.mem_append.mp hmem).resolve_left hcall

/-- **The user decides.** Whatever the handlers, the user and the timers do: who is accepted has
an id under which the user has accepted a request, and a file is moved only to a directory that
he has chosen for a request with its id. Each request is answered once at most; and once the
application has nothing left to do, each announced one has been, and its handler waits no more. -/
theorem accepted_by_user {s : State} (h : phone.Reach (fun _ _ => True) {} s) :
    (∀ k id, s.pending.receivers k = some ⟨id, .answered true⟩ → ∃ j w dir,
      s.waits j = some w ∧ w.request.sessionId = id ∧ w.request.decision = some (some dir)) ∧
    (∀ m ∈ s.placements, ∀ target, m.movedTo = some target → ∃ j w dir,
      s.waits j = some w ∧ w.request.sessionId = m.requestId ∧
      w.request.decision = some (some dir) ∧ target = targetPath dir m.filePath) ∧
    (s.calls ++ s.responded).Nodup ∧
    ((∀ a : Act, a.internal → phone.step s a = none) → ∀ k ∈ s.announced,
      k ∈ s.responded ∧ ∀ id, ¬ s.pending.WaitsFor id k) := by
  have hkept := kept_of_reach h
  refine ⟨fun k id hk => ?_, fun m hm target htarget => ?_, hkept.called, fun hidle k hk => ?_⟩
  · obtain ⟨j, w, hw, hid, hans, -⟩ := hkept.answered k id true hk
    obtain ⟨savePath, hout, hsome⟩ := hkept.answer j w true hw hans
    obtain ⟨dir, rfl⟩ := Option.isSome_iff_exists.mp hsome.symm
    exact ⟨j, w, dir, hw, hid, hkept.outcome j w dir hw hout⟩
  · obtain ⟨dir, hdir, rfl⟩ := hkept.moved m hm target htarget
    obtain ⟨j, w, hw, hid, hout, -⟩ := hkept.placed m hm dir hdir
    exact ⟨j, w, dir, hw, hid, hkept.outcome j w dir hw hout, rfl⟩
  · have hresponded := hkept.all_responded hidle k hk
    exact ⟨hresponded, hkept.settled k hresponded⟩

/-- A request is accepted, and its handler is told so. -/
theorem accepted_by_user_told : ∃ s, phone.run {} [.handler (.register ['x']),
      .announce 0 ⟨"laptop".toList, "a.jpg".toList, 5⟩, .deliver true,
      .accept 0 "/photos".toList, .resume 0, .call 0] = some s ∧
    s.pending.receivers 0 = some ⟨['x'], .answered true⟩ ∧
    ∃ j w dir, s.waits j = some w ∧ w.request.sessionId = ['x'] ∧
      w.request.decision = some (some dir) := by
  obtain ⟨s, hs, hanswered⟩ : ∃ s, phone.run {} [.handler (.register ['x']),
      .announce 0 ⟨"laptop".toList, "a.jpg".toList, 5⟩, .deliver true,
      .accept 0 "/photos".toList, .resume 0, .call 0] = some s ∧
        s.pending.receivers 0 = some ⟨['x'], .answered true⟩ := ⟨_, rfl, rfl⟩
  have hreach : phone.Reach (fun _ _ => True) {} s :=
    Machine.reach_of_run (fun _ _ _ => trivial) hs
  exact ⟨s, hs, hanswered, (accepted_by_user hreach).1 0 _ hanswered⟩

/-! ### Fresh ids -/

/-- A handler registers an id that no handler has had. -/
def Fresh (s : State) (a : Act) : Prop :=
  ∀ id, a = .handler (.register id) → ∀ k status, s.pending.receivers k ≠ some ⟨id, status⟩

/-- The handlers whose transfers are complete, as far as they have said so. -/
def State.completed (s : State) : List Nat :=
  (s.events.filter fun r => r.event.isComplete).map Report.origin ++
    s.placements.map Placement.origin

/-- An accepted request whose transfer is not known to be complete. -/
def State.Open (s : State) (k : Nat) (id dir : Text) : Prop :=
  ∃ w, s.waits k = some w ∧ w.request.sessionId = id ∧ w.outcome = some (some dir) ∧
    w.answer.isSome ∧ k ∉ s.placements.map Placement.origin

/-- What holds where all ids are fresh. -/
structure Single (s : State) : Prop where
  alone : ∀ j k id, (∃ status, s.pending.receivers j = some ⟨id, status⟩) →
    (∃ status, s.pending.receivers k = some ⟨id, status⟩) → j = k
  complete : ∀ r ∈ s.events, r.event.isComplete →
    s.pending.receivers r.origin = some ⟨r.requestId, .answered true⟩
  once : s.completed.Nodup
  finished : ∀ k ∈ s.completed, k ∈ s.finished
  paths : ∀ id dir, s.pendingSavePaths id = some dir ↔ ∃ k, s.Open k id dir
  placed : ∀ m ∈ s.placements, ∃ w dir, s.waits m.origin = some w ∧ w.answer.isSome ∧
    w.outcome = some (some dir) ∧ m.targetDir = some dir

section Single

variable {s : State}

theorem Single.start : Single {} := by
  constructor
  case once => exact List.nodup_nil
  all_goals simp [State.completed, State.Open]

/-- The handlers take a step, with a fresh id if it is a registration. -/
theorem Single.handlers (h : Single s) (hk : Kept s) {a : PendingAct} {p : PendingRequests}
    (hs : pendingRequests.step s.pending a = some p)
    (hfresh : ∀ id, a = .register id → ∀ k status, s.pending.receivers k ≠ some ⟨id, status⟩) :
    Single { s with pending := p } := by
  have hold : ∀ j id, (∃ status, p.receivers j = some ⟨id, status⟩) →
      (∃ status, s.pending.receivers j = some ⟨id, status⟩) ∨
        (j = s.pending.next ∧ a = .register id) := by
    rintro j id ⟨status, hstatus⟩
    rcases receivers_cases hk.handlers hs j with hsame | ⟨rfl, id', ha, hnew⟩ |
      ⟨id', later, hwaits, -, hnew, -⟩
    · exact .inl ⟨status, hsame.symm.trans hstatus⟩
    · obtain ⟨rfl, -⟩ := PendingRequests.receiver_unique hnew hstatus
      exact .inr ⟨rfl, ha⟩
    · obtain ⟨rfl, -⟩ := PendingRequests.receiver_unique hnew hstatus
      exact .inl ⟨_, hwaits⟩
  exact { h with
    alone := by
      intro j k id hj hk'
      cases hold j id hj with
      | inl hj =>
        cases hold k id hk' with
        | inl hk' => exact h.alone j k id hj hk'
        | inr hnew =>
          obtain ⟨status, hstatus⟩ := hj
          exact absurd hstatus (hfresh id hnew.2 j status)
      | inr hnew =>
        cases hold k id hk' with
        | inl hk' =>
          obtain ⟨status, hstatus⟩ := hk'
          exact absurd hstatus (hfresh id hnew.2 k status)
        | inr hnew' => exact hnew.1.trans hnew'.1.symm
    complete := by
      intro r hr hcomplete
      obtain ⟨later, hlater, hstatus⟩ :=
        receivers_step hk.handlers hs (h.complete r hr hcomplete)
      exact hlater.trans (by rw [hstatus.resolve_left (by simp)]) }

theorem Single.announce (h : Single s) {k : Nat} {id : Text} {e : Event} (he : e.isIncoming)
    (announced : List Nat) :
    Single { s with announced := announced, events := s.events ++ [⟨k, id, e⟩] } := by
  have hcomplete : e.isComplete = false := by
    cases e <;> first | rfl | cases he
  have hsame : ({ s with announced := announced, events := s.events ++ [⟨k, id, e⟩] } :
      State).completed = s.completed := by
    simp [State.completed, List.filter_append, hcomplete]
  exact { h with
    complete := by
      intro r hr hc
      refine h.complete r ((List.mem_append.mp hr).resolve_right fun hnew => ?_) hc
      obtain rfl := List.mem_singleton.mp hnew
      exact Bool.false_ne_true (hcomplete.symm.trans hc)
    once := hsame ▸ h.once
    finished := hsame ▸ h.finished }

theorem Single.report (h : Single s) {k : Nat} {r : Receiver} (hr : s.pending.receivers k = some r)
    {e : Event} (he : e.permitted r.status (decide (k ∈ s.finished))) :
    Single { s with
      events := s.events ++ [⟨k, r.id, e⟩]
      finished := if e.isComplete then k :: s.finished else s.finished } := by
  have hpermitted : e.isComplete → r.status = .answered true ∧ k ∉ s.finished := by
    intro hc
    simpa [Event.permitted, hc] using (Bool.and_eq_true_iff.mp he).2
  have hperm : (({ s with
      events := s.events ++ [⟨k, r.id, e⟩]
      finished := if e.isComplete then k :: s.finished else s.finished } : State).completed).Perm
        (if e.isComplete then k :: s.completed else s.completed) := by
    cases hc : e.isComplete with
    | false => simp [State.completed, List.filter_append, hc]
    | true =>
      simp only [State.completed, List.filter_append, List.map_append, List.filter_singleton, hc,
        cond_true, List.map_cons, List.map_nil, List.append_assoc, if_true]
      exact List.perm_middle
  exact { h with
    complete := by
      intro r' hr' hc
      cases List.mem_append.mp hr' with
      | inl hr' => exact h.complete r' hr' hc
      | inr hr' =>
        obtain rfl := List.mem_singleton.mp hr'
        rw [← (hpermitted hc).1]
        exact hr
    once := by
      refine hperm.nodup_iff.mpr ?_
      split
      · next hc =>
        exact List.nodup_cons.mpr ⟨fun hk => (hpermitted hc).2 (h.finished k hk), h.once⟩
      · exact h.once
    finished := by
      intro j hj
      have hj := hperm.mem_iff.mp hj
      show j ∈ if e.isComplete then k :: s.finished else s.finished
      split at hj
      · next hc =>
        rw [if_pos hc]
        exact List.mem_cons.mpr ((List.mem_cons.mp hj).imp (fun he => he) (h.finished j))
      · next hc =>
        rw [if_neg hc]
        exact h.finished j hj }

theorem Single.show (h : Single s) {r : Report} {events : List Report} (hs : s.events = r :: events)
    (hr : r.event.isIncoming) (hnone : s.waits r.origin = none)
    (request : IncomingTransferRequest) : Single { s with
      events := events
      waits := Function.update s.waits r.origin (some { request }) } := by
  have hcomplete : r.event.isComplete = false := by
    cases he : r.event with
    | incoming _ _ _ => rfl
    | _ =>
      rw [he] at hr
      cases hr
  have hcompleted : s.completed = (events.filter fun r => r.event.isComplete).map Report.origin ++
      s.placements.map Placement.origin := by
    rw [State.completed, hs, List.filter_cons_of_neg (by simp [hcomplete])]
  have honce := h.once
  have hfinished := h.finished
  rw [hcompleted] at honce hfinished
  have hother : ∀ k w, s.waits k = some w →
      Function.update s.waits r.origin (some { request }) k = some w := by
    intro k w hw
    have hne : k ≠ r.origin := by
      rintro rfl
      rw [hnone] at hw
      cases hw
    rw [Function.update_of_ne hne, hw]
  exact { h with
    complete := fun r' hr' => h.complete r' (hs ▸ List.mem_cons_of_mem _ hr')
    once := honce
    finished := hfinished
    paths := by
      intro id dir
      refine (h.paths id dir).trans (exists_congr fun k => ⟨?_, ?_⟩)
      · rintro ⟨w, hw, hopen⟩
        exact ⟨w, hother k w hw, hopen⟩
      · rintro ⟨w, hw, hid, hout, hopen⟩
        cases update_cases hw with
        | inl hw => exact ⟨w, hw.2, hid, hout, hopen⟩
        | inr hnew =>
          obtain ⟨-, rfl⟩ := hnew
          cases hout
    placed := by
      intro m hm
      obtain ⟨w, dir, hw, hplaced⟩ := h.placed m hm
      exact ⟨w, dir, hother _ w hw, hplaced⟩ }

theorem Single.take (h : Single s) {r : Report} {events : List Report} (hs : s.events = r :: events)
    (hr : r.event.isComplete = false) : Single { s with events := events } := by
  have hcompleted : s.completed = ({ s with events := events } : State).completed := by
    rw [State.completed, hs, List.filter_cons_of_neg (by simp [hr])]
    rfl
  exact { h with
    complete := fun r' hr' => h.complete r' (hs ▸ List.mem_cons_of_mem _ hr')
    once := hcompleted ▸ h.once
    finished := hcompleted ▸ h.finished }

/-- A completion finds the directory of its own request. -/
theorem Single.place (h : Single s) (hk : Kept s) {r : Report} {events : List Report}
    (hs : s.events = r :: events) (hr : r.event.isComplete) {m : Placement}
    (horigin : m.origin = r.origin) (hid : m.requestId = r.requestId)
    (hm : m.targetDir = s.pendingSavePaths r.requestId) :
    Single { s with
      events := events
      pendingSavePaths := Function.update s.pendingSavePaths r.requestId none
      placements := s.placements ++ [m] } := by
  have hanswered := h.complete r (hs ▸ List.mem_cons_self) hr
  have hperm : s.completed.Perm ((events.filter fun r => r.event.isComplete).map Report.origin ++
      (s.placements ++ [m]).map Placement.origin) := by
    rw [State.completed, hs, List.filter_cons_of_pos (by exact hr), List.map_cons, List.map_append,
      List.map_singleton, horigin, ← List.append_assoc]
    exact @List.perm_append_comm _ [r.origin] _
  have hfresh : r.origin ∉ s.placements.map Placement.origin := by
    have honce := h.once
    rw [State.completed, hs, List.filter_cons_of_pos (by exact hr), List.map_cons,
      List.cons_append, List.nodup_cons] at honce
    exact fun hmem => honce.1 (List.mem_append_right _ hmem)
  -- the request that has been accepted is that of the handler
  obtain ⟨k, w, hw, hwid, hans, -⟩ := hk.answered r.origin r.requestId true hanswered
  have hkr : k = r.origin :=
    h.alone k r.origin r.requestId (hwid ▸ (hk.request k w hw).2) ⟨_, hanswered⟩
  rw [hkr] at hw
  obtain ⟨savePath, hout, hsome⟩ := hk.answer r.origin w true hw hans
  obtain ⟨dir, rfl⟩ := Option.isSome_iff_exists.mp hsome.symm
  have hsaved : s.pendingSavePaths r.requestId = some dir :=
    (h.paths r.requestId dir).mpr ⟨r.origin, w, hw, hwid, hout, by rw [hans]; rfl, hfresh⟩
  have horigins : ∀ j, j ∉ (s.placements ++ [m]).map Placement.origin ↔
      j ∉ s.placements.map Placement.origin ∧ j ≠ r.origin := by
    intro j
    simp [horigin]
  exact { h with
    complete := fun r' hr' => h.complete r' (hs ▸ List.mem_cons_of_mem _ hr')
    once := hperm.nodup_iff.mp h.once
    finished := fun j hj => h.finished j (hperm.mem_iff.mpr hj)
    paths := by
      intro id dir'
      show Function.update s.pendingSavePaths r.requestId none id = some dir' ↔ _
      by_cases hid' : id = r.requestId
      · subst hid'
        rw [Function.update_self]
        refine iff_of_false (by simp) ?_
        rintro ⟨j, u, hu, huid, -, -, hj⟩
        refine ((horigins j).mp hj).2 ?_
        exact h.alone j r.origin r.requestId (huid ▸ (hk.request j u hu).2) ⟨_, hanswered⟩
      · rw [Function.update_of_ne hid', h.paths id dir']
        refine exists_congr fun j => exists_congr fun u => ?_
        constructor
        · rintro ⟨hu, huid, hout', hans', hj⟩
          refine ⟨hu, huid, hout', hans', (horigins j).mpr ⟨hj, ?_⟩⟩
          rintro rfl
          obtain rfl := Option.some.inj (hw.symm.trans hu)
          exact hid' (huid.symm.trans hwid)
        · rintro ⟨hu, huid, hout', hans', hj⟩
          exact ⟨hu, huid, hout', hans', ((horigins j).mp hj).1⟩
    placed := by
      intro m' hm'
      cases List.mem_append.mp hm' with
      | inl hm' => exact h.placed m' hm'
      | inr hm' =>
        obtain rfl := List.mem_singleton.mp hm'
        exact ⟨w, dir, horigin ▸ hw, by rw [hans]; rfl, hout, hm.trans hsaved⟩ }

/-- A wait goes on, without an answer of its own. -/
theorem Single.setWait (h : Single s) (hk : Kept s) {k : Nat} {v w : Wait}
    (hv : s.waits k = some v) (hlater : v.Later w) (hanswer : w.answer = v.answer) :
    Single (s.setWait k w) := by
  have hgrows : s.Grows (s.setWait k w) := .update hv hlater rfl
  have hback : ∀ j u, (s.setWait k w).waits j = some u → u.answer.isSome →
      ∃ u', s.waits j = some u' ∧ u'.request.sessionId = u.request.sessionId ∧
        u'.outcome = u.outcome ∧ u'.answer.isSome := by
    intro j u hu hans
    cases update_cases hu with
    | inl hu => exact ⟨u, hu.2, rfl, rfl, hans⟩
    | inr hnew =>
      obtain ⟨rfl, rfl⟩ := hnew
      rw [hanswer] at hans
      obtain ⟨b, hb⟩ := Option.isSome_iff_exists.mp hans
      obtain ⟨savePath, hout, -⟩ := hk.answer j v b hv hb
      exact ⟨v, hv, hlater.id.symm, hout.trans (hlater.outcome _ hout).symm, hans⟩
  exact { h with
    paths := by
      intro id dir
      refine (h.paths id dir).trans (exists_congr fun j => ⟨?_, ?_⟩)
      · rintro ⟨u, hu, hid, hout, hans, hj⟩
        obtain ⟨u', hu', hl⟩ := hgrows j u hu
        obtain ⟨b, hb⟩ := Option.isSome_iff_exists.mp hans
        exact ⟨u', hu', hl.id.trans hid, hl.outcome _ hout, by rw [hl.answer b hb]; rfl, hj⟩
      · rintro ⟨u, hu, hid, hout, hans, hj⟩
        obtain ⟨u', hu', hid', hout', hans'⟩ := hback j u hu hans
        exact ⟨u', hu', hid'.trans hid, hout'.trans hout, hans', hj⟩
    placed := by
      intro m hm
      obtain ⟨u, dir, hu, hans, hout, hdir⟩ := h.placed m hm
      obtain ⟨u', hu', hl⟩ := hgrows m.origin u hu
      obtain ⟨b, hb⟩ := Option.isSome_iff_exists.mp hans
      exact ⟨u', dir, hu', by rw [hl.answer b hb]; rfl, hl.outcome _ hout, hdir⟩ }

theorem Single.resume (h : Single s) (hk : Kept s) {k : Nat} {w : Wait} {savePath : Option Text}
    (hw : s.waits k = some w) (hout : w.outcome = some savePath) (hans : w.answer = none) :
    Single (s.resume k w savePath) := by
  have hself : (s.resume k w savePath).waits k = some { w with answer := some savePath.isSome } :=
    Function.update_self ..
  have hother : ∀ j, j ≠ k → (s.resume k w savePath).waits j = s.waits j :=
    fun j hj => Function.update_of_ne hj ..
  have hunplaced : k ∉ s.placements.map Placement.origin := by
    intro hmem
    obtain ⟨m, hm, rfl⟩ := List.mem_map.mp hmem
    obtain ⟨u, dir, hu, hsome, -⟩ := h.placed m hm
    obtain rfl := Option.some.inj (hw.symm.trans hu)
    rw [hans] at hsome
    cases hsome
  have hopen : ∀ j id dir, (s.resume k w savePath).Open j id dir ↔
      (j ≠ k ∧ s.Open j id dir) ∨
        (j = k ∧ w.request.sessionId = id ∧ savePath = some dir) := by
    intro j id dir
    by_cases hj : j = k
    · subst hj
      constructor
      · rintro ⟨u, hu, hid, hout', -⟩
        obtain rfl := Option.some.inj (hself.symm.trans hu)
        exact .inr ⟨rfl, hid, Option.some.inj (hout.symm.trans hout')⟩
      · rintro (⟨hne, -⟩ | ⟨-, hid, rfl⟩)
        · exact absurd rfl hne
        · exact ⟨_, hself, hid, hout, rfl, hunplaced⟩
    · simp only [State.Open, hother j hj, hj, ne_eq, not_false_eq_true, true_and, false_and,
        or_false]
      exact Iff.rfl
  have hnot : ∀ id dir, ¬ s.Open k id dir := by
    rintro id dir ⟨u, hu, -, -, hsome, -⟩
    obtain rfl := Option.some.inj (hw.symm.trans hu)
    rw [hans] at hsome
    cases hsome
  exact { h with
    paths := by
      intro id dir
      have hold : (∃ j, j ≠ k ∧ s.Open j id dir) ↔ s.pendingSavePaths id = some dir := by
        rw [h.paths id dir]
        refine exists_congr fun j => and_iff_right_of_imp ?_
        rintro hj rfl
        exact hnot id dir hj
      simp only [hopen, exists_or, exists_eq_left, hold]
      cases savePath with
      | none => simp [State.resume]
      | some path =>
        show Function.update s.pendingSavePaths w.request.sessionId (some path) id = some dir ↔ _
        by_cases hid : id = w.request.sessionId
        · subst hid
          rw [Function.update_self, ← hold]
          constructor
          · exact fun hdir => .inr ⟨rfl, hdir⟩
          · rintro (⟨j, hj, u, hu, huid, -⟩ | ⟨-, hdir⟩)
            · refine absurd ?_ hj
              exact h.alone j k _ (huid ▸ (hk.request j u hu).2) (hk.request k w hw).2
            · exact hdir
        · rw [Function.update_of_ne hid]
          constructor
          · exact fun hdir => .inl hdir
          · rintro (hdir | ⟨hid', -⟩)
            · exact hdir
            · exact absurd hid'.symm hid
    placed := by
      intro m hm
      obtain ⟨u, dir, hu, hplaced⟩ := h.placed m hm
      have hne : m.origin ≠ k := fun he => hunplaced (he ▸ List.mem_map_of_mem hm)
      exact ⟨u, dir, (hother _ hne).trans hu, hplaced⟩ }

theorem Single.handle (h : Single s) (hk : Kept s) {r : Report} {events : List Report}
    (hs : s.events = r :: events) (moves : Bool) :
    Single (({ s with events := events } : State).handle r moves) := by
  have hmem : r ∈ s.events := hs ▸ List.mem_cons_self
  obtain ⟨origin, requestId, event⟩ := r
  cases event with
  | incoming senderName fileName fileSize =>
    have hshown := h.show hs rfl (hk.shown _ hmem rfl).1
      { senderIp := senderName, sessionId := requestId, fileName := fileName, fileSize := fileSize }
    exact { hshown with }
  | complete filePath =>
    let targetDir := s.pendingSavePaths requestId
    let m : Placement :=
      { origin := origin, requestId := requestId, filePath := filePath, targetDir := targetDir,
        movedTo := (targetDir.map fun dir => targetPath dir filePath).filter fun target =>
          moves && decide (filePath ≠ target) }
    have hplaced := h.place hk hs rfl (m := m) rfl rfl rfl
    exact { hplaced with }
  | _ => exact { h.take hs rfl with }

theorem Single.step {t : State} {a : Act} (h : Single s) (hk : Kept s) (hok : Fresh s a)
    (hs : phone.step s a = some t) : Single t := by
  cases a with
  | handler a =>
    cases ha : isAnswer a with
    | true =>
      have hs : State.step s (.handler a) = some t := hs
      rw [State.step, if_pos ha] at hs
      cases hs
    | false =>
      have hs : State.step s (.handler a) = some t := hs
      rw [State.step, ha, if_neg Bool.false_ne_true] at hs
      obtain ⟨p, hp, rfl⟩ := Option.map_eq_some_iff.mp hs
      exact h.handlers hk hp fun id hid => hok id (congrArg Act.handler hid)
  | announce k offer =>
    obtain ⟨r, hr, hg⟩ := Option.bind_eq_some_iff.mp hs
    obtain ⟨-, rfl⟩ := guarded_eq_some.mp hg
    exact h.announce rfl _
  | report k event =>
    obtain ⟨r, hr, hg⟩ := Option.bind_eq_some_iff.mp hs
    obtain ⟨hpermitted, rfl⟩ := guarded_eq_some.mp hg
    exact h.report hr hpermitted
  | deliver moves =>
    cases hevents : s.events with
    | nil =>
      simp only [phone, State.step, hevents] at hs
      cases hs
    | cons r events =>
      simp only [phone, State.step, hevents] at hs
      obtain rfl := Option.some.inj hs
      exact h.handle hk hevents moves
  | accept k savePath =>
    obtain ⟨w, hw, rfl⟩ := Option.map_eq_some_iff.mp hs
    exact h.setWait hk hw (w.later_decide _) rfl
  | decline k =>
    obtain ⟨w, hw, rfl⟩ := Option.map_eq_some_iff.mp hs
    exact h.setWait hk hw (w.later_decide _) rfl
  | timeout k =>
    obtain ⟨w, hw, hg⟩ := Option.bind_eq_some_iff.mp hs
    obtain ⟨hnone, rfl⟩ := guarded_eq_some.mp hg
    refine h.setWait hk hw ⟨rfl, fun savePath hout => ?_, fun b hb => hb⟩ rfl
    rw [hnone] at hout
    cases hout
  | resume k =>
    obtain ⟨w, hw, hg⟩ := Option.bind_eq_some_iff.mp hs
    obtain ⟨savePath, hout, hg⟩ := Option.bind_eq_some_iff.mp hg
    obtain ⟨hans, rfl⟩ := guarded_eq_some.mp hg
    exact h.resume hk hw hout hans
  | call k =>
    obtain ⟨w, hw, hg⟩ := Option.bind_eq_some_iff.mp hs
    obtain ⟨b, hb, hg⟩ := Option.bind_eq_some_iff.mp hg
    obtain ⟨-, rfl⟩ := guarded_eq_some.mp hg
    have hp : pendingRequests.step s.pending (.respond w.request.sessionId b) =
        some (s.pending.respond w.request.sessionId b).2 := rfl
    have hcalled := h.handlers hk hp fun id hid => by cases hid
    exact { hcalled with }

end Single

/-- **Files where they were wanted.** Where no id is used again, a handler's answer is the
decision on its own request, and its file is moved to the directory chosen for it. What the map
of directories holds is what has been accepted and is not complete. -/
theorem placed_where_chosen {s : State} (h : phone.Reach Fresh {} s) :
    (∀ k id b, s.pending.receivers k = some ⟨id, .answered b⟩ → ∃ w savePath,
      s.waits k = some w ∧ w.outcome = some savePath ∧ b = savePath.isSome ∧
      ∀ dir, savePath = some dir → w.request.decision = some (some dir)) ∧
    (s.placements.map Placement.origin).Nodup ∧
    (∀ m ∈ s.placements, ∃ w dir, s.waits m.origin = some w ∧
      w.request.decision = some (some dir) ∧ m.targetDir = some dir ∧
      ∀ target, m.movedTo = some target → target = targetPath dir m.filePath) ∧
    ∀ id dir, s.pendingSavePaths id = some dir ↔ ∃ k, s.Open k id dir := by
  have hkept := kept_of_reach h
  have hsingle : Kept s ∧ Single s := by
    refine h.invariant (I := fun u => Kept u ∧ Single u) ⟨.start, .start⟩ fun u a v hu hok hs => ?_
    exact ⟨hu.1.step hs, hu.2.step hu.1 hok hs⟩
  obtain ⟨-, hsingle⟩ := hsingle
  have hplaced : (s.placements.map Placement.origin).Nodup :=
    (List.nodup_append.mp hsingle.once).2.1
  refine ⟨fun k id b hk => ?_, hplaced, fun m hm => ?_, hsingle.paths⟩
  · obtain ⟨j, w, hw, hid, hans, -⟩ := hkept.answered k id b hk
    obtain rfl : j = k := hsingle.alone j k id (hid ▸ (hkept.request j w hw).2) ⟨_, hk⟩
    obtain ⟨savePath, hout, hb⟩ := hkept.answer j w b hw hans
    refine ⟨w, savePath, hw, hout, hb, ?_⟩
    rintro dir rfl
    exact hkept.outcome j w dir hw hout
  · obtain ⟨w, dir, hw, -, hout, hdir⟩ := hsingle.placed m hm
    refine ⟨w, dir, hw, hkept.outcome _ w dir hw hout, hdir, fun target htarget => ?_⟩
    obtain ⟨dir', hdir', rfl⟩ := hkept.moved m hm target htarget
    obtain rfl := Option.some.inj (hdir.symm.trans hdir')
    rfl

/-- A photo is announced, accepted, received and moved. -/
def photoRest : List Act :=
  [.announce 0 ⟨"laptop".toList, "a.jpg".toList, 5⟩, .deliver true, .accept 0 "/photos".toList,
    .resume 0, .call 0, .report 0 (.progress 5 5), .report 0 (.complete "/inbox/a.jpg".toList),
    .deliver true, .deliver true]

def photoMoved : Placement where
  origin := 0
  requestId := ['x']
  filePath := "/inbox/a.jpg".toList
  targetDir := some "/photos".toList
  movedTo := some "/photos/a.jpg".toList

theorem placed_where_chosen_photo : ∃ s, phone.run {} (.handler (.register ['x']) :: photoRest) =
      some s ∧ photoMoved ∈ s.placements ∧
    ∃ w, s.waits 0 = some w ∧ w.request.decision = some (some "/photos".toList) := by
  obtain ⟨s, hs, hplaced⟩ : ∃ s,
      phone.run {} (.handler (.register ['x']) :: photoRest) = some s ∧
        s.placements = [photoMoved] := ⟨_, rfl, rfl⟩
  have hm : photoMoved ∈ s.placements := by
    rw [hplaced]
    exact List.mem_singleton_self _
  obtain ⟨u, hu, hrest⟩ := Option.bind_eq_some_iff.mp hs
  have hfresh : Fresh {} (.handler (.register ['x'])) := by
    intro id hid k status hk
    cases hk
  have hreach : phone.Reach Fresh {} s := by
    refine .head hfresh hu (Machine.reach_of_run (fun t a ha id hid => ?_) hrest)
    subst hid
    simp [photoRest] at ha
  obtain ⟨w, dir, hw, hdecision, hdir, -⟩ := (placed_where_chosen hreach).2.2.1 _ hm
  obtain rfl := Option.some.inj hdir
  exact ⟨s, hs, hm, w, hw, hdecision⟩

end P2PTransfer.Incoming
