import EndpointSecurity.Ruby.Dispatch

/-!
# What dispatching leaves behind

A message that is released, or whose client is closed, has been answered if it is an AUTH
message; a message that no handler has been given yet is valid and not retained; and after its
dispatch every message is retained or released. Native methods, blocks and the clauses of
`dispatch` all keep this, however they end.
-/

namespace EndpointSecurity.Dispatch

open Raising

namespace Client

variable {c : Client} {s s' : State} {m : Nat}

/-- Every AUTH message that has been released, or whose client is closed, has been answered. -/
def Settled (c : Client) (s : State) : Prop :=
  ∀ m, c.native.isAuth m → (s.message m).valid = false ∨ s.closed → (s.message m).answered

/-- A message that no handler can have retained or released. -/
def Untouched (m : Nat) (s : State) : Prop := (s.message m).valid ∧ (s.message m).held = false

/-- The messages that no handler has been given are untouched. -/
def Fresh (s : State) : Prop := ∀ m, s.given ≤ m → Untouched m s

/-- What holds between two states of a dispatch. -/
structure Later (c : Client) (s s' : State) : Prop where
  given : s'.given = s.given
  drained : s'.drained = s.drained
  handled : ∀ m ∈ s.handled, m ∈ s'.handled
  held : ∀ m, (s.message m).held → (s'.message m).held
  released : ∀ m, (s.message m).valid = false → (s'.message m).valid = false
  fresh : Fresh s → Fresh s'
  settled : c.Settled s → c.Settled s'

/-- Moreover, the dispatcher has not counted or reported an error. -/
structure Quiet (c : Client) (s s' : State) : Prop extends Later c s s' where
  errors : s'.errors = s.errors
  reported : s'.reported = s.reported

instance : Std.Refl (Later c) where
  refl _ := ⟨rfl, rfl, fun _ h => h, fun _ h => h, fun _ h => h, id, id⟩

instance : IsTrans State (Later c) where
  trans _ _ _ h h' :=
    ⟨h'.given.trans h.given, h'.drained.trans h.drained,
      fun m hm => h'.handled m (h.handled m hm), fun m hm => h'.held m (h.held m hm),
      fun m hm => h'.released m (h.released m hm), h'.fresh ∘ h.fresh, h'.settled ∘ h.settled⟩

instance : Std.Refl (Quiet c) where
  refl s := ⟨refl_of (Later c) s, rfl, rfl⟩

instance : IsTrans State (Quiet c) where
  trans _ _ _ h h' :=
    ⟨trans_of (Later c) h.toLater h'.toLater, h'.errors.trans h.errors,
      h'.reported.trans h.reported⟩

/-- A message that is not retained later was not retained before. -/
theorem Later.not_held (h : Later c s s') (hheld : (s'.message m).held = false) :
    (s.message m).held = false := by
  by_contra hne
  rw [h.held m (by simpa using hne)] at hheld
  cases hheld

/-- `Quiet`, if a handler has been given message `m`. -/
def QuietGiven (c : Client) (m : Nat) (s s' : State) : Prop := m < s.given → Quiet c s s'

instance : Std.Refl (QuietGiven c m) where
  refl s _ := refl_of (Quiet c) s

instance : IsTrans State (QuietGiven c m) where
  trans _ _ _ h h' hm := trans_of (Quiet c) (h hm) (h' ((h hm).given ▸ hm))

/-- `Later`, if a handler has been given message `m`. -/
def LaterGiven (c : Client) (m : Nat) (s s' : State) : Prop := m < s.given → Later c s s'

instance : Std.Refl (LaterGiven c m) where
  refl s _ := refl_of (Later c) s

instance : IsTrans State (LaterGiven c m) where
  trans _ _ _ h h' hm := trans_of (Later c) (h hm) (h' ((h hm).given ▸ hm))

theorem QuietGiven.laterGiven (h : QuietGiven c m s s') : LaterGiven c m s s' :=
  fun hm => (h hm).toLater

theorem Quiet.quietGiven (h : Quiet c s s') : QuietGiven c m s s' := fun _ => h

/-- The dispatcher's own variables change. -/
theorem quiet_of_same (message : s'.message = s.message) (given : s'.given = s.given)
    (drained : s'.drained = s.drained) (closed : s'.closed = s.closed)
    (handled : s'.handled = s.handled) (errors : s'.errors = s.errors)
    (reported : s'.reported = s.reported) : Quiet c s s' where
  given := given
  drained := drained
  handled _ h := handled ▸ h
  held _ h := message ▸ h
  released _ h := message ▸ h
  fresh h := by simpa only [Fresh, Untouched, given, message] using h
  settled h := by simpa only [Settled, message, closed] using h
  errors := errors
  reported := reported

/-! ## Native methods -/

@[simp] theorem update_message_self (f : MessageState → MessageState) (s : State) :
    (update m f s).message m = f (s.message m) := by
  simp [update]

theorem update_message_of_ne {k : Nat} (h : k ≠ m) (f : MessageState → MessageState) (s : State) :
    (update m f s).message k = s.message k := by
  simp [update, h]

/-- A change of one message at the end of a native method, which retains the message, answers it
    or releases it. -/
theorem Quiet.update {f : MessageState → MessageState} (h : Quiet c s s')
    (hheld : (s'.message m).held → (f (s'.message m)).held)
    (hreleased : (s'.message m).valid = false → (f (s'.message m)).valid = false)
    (hfresh : s.given ≤ m → Untouched m s' → Untouched m (update m f s'))
    (hsettled : c.Settled s → c.native.isAuth m → (f (s'.message m)).valid = false ∨ s'.closed →
      (f (s'.message m)).answered) :
    Quiet c s (Client.update m f s') where
  given := h.given
  drained := h.drained
  handled := h.handled
  errors := h.errors
  reported := h.reported
  held k hk := by
    have hk := h.held k hk
    by_cases hkm : k = m
    · subst hkm
      simpa using hheld hk
    · rwa [update_message_of_ne hkm]
  released k hk := by
    have hk := h.released k hk
    by_cases hkm : k = m
    · subst hkm
      simpa using hreleased hk
    · rwa [update_message_of_ne hkm]
  fresh hs k hk := by
    have huntouched := h.fresh hs k (h.given ▸ hk)
    by_cases hkm : k = m
    · subst hkm
      exact hfresh (h.given ▸ hk) huntouched
    · simpa only [Untouched, update_message_of_ne hkm] using huntouched
  settled hs k hauth hk := by
    by_cases hkm : k = m
    · subst hkm
      rw [update_message_self] at hk ⊢
      exact hsettled hs hauth hk
    · rw [update_message_of_ne hkm] at hk ⊢
      exact h.settled hs k hauth hk

theorem quiet_answer (m : Nat) (s : State) :
    Quiet c s (update m (fun w => { w with answered := true }) s) := by
  refine (refl_of (Quiet c) s).update (fun h => h) (fun h => h) (fun _ h => ?_) fun _ _ _ => rfl
  simpa [Untouched] using h

theorem quiet_respondSlot (c : Client) (m : Nat) (s : State) : Quiet c s (c.respondSlot m s).2 := by
  unfold respondSlot
  split
  · exact quiet_answer m s
  · exact refl_of (Quiet c) s

/-- After `esrb_respond_slot` an AUTH message has been answered. -/
theorem answered_respondSlot (hs : c.Settled s) (hauth : c.native.isAuth m) :
    ((c.respondSlot m s).2.message m).answered := by
  unfold respondSlot
  by_cases hclosed : s.closed
  · simpa [hclosed] using hs m hauth (.inr hclosed)
  · by_cases hanswered : (s.message m).answered
    · simp [pending, hanswered]
    · simp [hclosed, pending, hauth, hanswered]

theorem respondSlot_valid (c : Client) (m : Nat) (s : State) :
    ((c.respondSlot m s).2.message m).valid = (s.message m).valid ∧
      ((c.respondSlot m s).2.message m).held = (s.message m).held := by
  unfold respondSlot
  split <;> simp

/-- `message_release` of a message that a handler may have been given. -/
theorem quiet_messageRelease (hgiven : Untouched m s → m < s.given) :
    Quiet c s (c.messageRelease m s) := by
  unfold messageRelease
  split
  · have hrespond := quiet_respondSlot c m s
    refine hrespond.update id (fun _ => rfl) (fun hle hm => ?_) fun hs hauth _ => ?_
    · rw [Untouched, (respondSlot_valid c m s).1, (respondSlot_valid c m s).2] at hm
      have := hgiven hm
      omega
    · exact answered_respondSlot hs hauth
  · exact refl_of (Quiet c) s

theorem messageRelease_valid (c : Client) (m : Nat) (s : State) :
    ((c.messageRelease m s).message m).valid = false := by
  unfold messageRelease
  split
  · simp
  · simp_all

theorem quiet_nativeClose (c : Client) (s : State) : Quiet c s (c.nativeClose s) := by
  unfold nativeClose
  split
  · exact refl_of (Quiet c) s
  · refine ⟨⟨rfl, rfl, fun _ h => h, fun k hk => ?_, fun k hk => ?_, fun hs k hk => ?_,
      fun hs k hauth _ => ?_⟩, rfl, rfl⟩
    · dsimp only
      split <;> exact hk
    · dsimp only
      split <;> exact hk
    · have := hs k hk
      dsimp only [Untouched]
      split <;> exact this
    · -- A message that is not in an occupied slot has been released, and so answered
      dsimp only
      split
      · rfl
      · by_cases hvalid : (s.message k).valid
        · simp_all [pending]
        · exact hs k hauth (.inl (by simpa using hvalid))

theorem quiet_close (c : Client) (s : State) : Quiet c s (c.close s) := by
  unfold close
  split
  · exact quiet_of_same rfl rfl rfl rfl rfl rfl rfl
  · refine trans_of (Quiet c) ?_ (quiet_nativeClose c { s with running := false })
    exact quiet_of_same rfl rfl rfl rfl rfl rfl rfl

theorem quiet_interfere (c : Client) (s : State) (i : Interference) :
    Quiet c s (c.interfere s i) := by
  cases i with
  | release k =>
    simp only [interfere]
    split
    · next hheld => exact quiet_messageRelease fun hm => absurd hheld (by simp [hm.2])
    · exact refl_of (Quiet c) s
  | respond k verdict =>
    simp only [interfere]
    split
    · exact quiet_respondSlot c k s
    · exact refl_of (Quiet c) s
  | timeout k =>
    simp only [interfere]
    split
    · refine trans_of (Quiet c) (quiet_answer k s) ?_
      exact quiet_of_same rfl rfl rfl rfl rfl rfl rfl
    · exact refl_of (Quiet c) s

theorem quiet_disturb (c : Client) (s : State) : Quiet c s (c.disturb s) := by
  have hfold (events : List Interference) : ∀ s, Quiet c s (events.foldl c.interfere s) := by
    induction events with
    | nil => exact refl_of (Quiet c)
    | cons i events ih => exact fun s => trans_of (Quiet c) (quiet_interfere c s i) (ih _)
  refine trans_of (Quiet c) (hfold (c.before s.calls) s) ?_
  exact quiet_of_same rfl rfl rfl rfl rfl rfl rfl

/-- Nobody else releases or retains a message that has not been retained. -/
theorem untouched_interfere (i : Interference) (h : Untouched m s) :
    Untouched m (c.interfere s i) := by
  have hupdate (k : Nat) {s : State} (h : Untouched m s) :
      Untouched m (update k (fun w => { w with answered := true }) s) := by
    by_cases hk : m = k
    · subst hk
      simpa [Untouched] using h
    · simpa only [Untouched, update_message_of_ne hk] using h
  cases i with
  | release k =>
    simp only [interfere]
    split
    · next hheld =>
      have hk : m ≠ k := fun hk => by simp [← hk, h.2] at hheld
      unfold messageRelease
      split
      · rw [Untouched, update_message_of_ne hk]
        unfold respondSlot
        split
        · exact hupdate k h
        · exact h
      · exact h
    · exact h
  | respond k verdict =>
    simp only [interfere, respondSlot]
    split
    · split
      · exact hupdate k h
      · exact h
    · exact h
  | timeout k =>
    simp only [interfere]
    split
    · exact hupdate k h
    · exact h

theorem untouched_disturb (h : Untouched m s) : Untouched m (c.disturb s) := by
  have hfold (events : List Interference) :
      ∀ s, Untouched m s → Untouched m (events.foldl c.interfere s) := by
    induction events with
    | nil => exact fun _ h => h
    | cons i events ih => exact fun s h => ih _ (untouched_interfere i h)
  exact hfold _ s h

/-! ## Methods and blocks -/

theorem follows_getMessage (m : Nat) : (getMessage m).Follows (Quiet c) := by
  refine .bind .get fun s => ?_
  split
  · exact .pure ()
  · exact .raise _

theorem follows_respond (m : Nat) (verdict : Verdict) :
    (c.respond m verdict).Follows (Quiet c) := by
  unfold respond
  split
  · exact .raise _
  · refine .bind .get fun s => .bind (.modify (quiet_respondSlot c m)) fun _ => ?_
    split
    · exact .raise _
    · exact .pure _

/-- A method of a message. -/
theorem follows_call (m : Nat) (method : Method) :
    (c.call m method).Follows (QuietGiven c m) := by
  have hget : (getMessage m).Follows (QuietGiven c m) :=
    (follows_getMessage m).mono fun _ _ => Quiet.quietGiven
  refine .bind (.modify fun s => (quiet_disturb c s).quietGiven) fun _ => ?_
  cases method with
  | retain =>
    refine hget.bind fun _ => .bind (.modify fun s hm => ?_) fun _ => .pure _
    refine (refl_of (Quiet c) s).update (fun _ => rfl) (fun h => h) (fun hle => ?_)
      fun hs hauth h => hs m hauth h
    omega
  | release =>
    exact .bind (.modify fun s hm => quiet_messageRelease fun _ => hm) fun _ => .pure _
  | respond verdict =>
    exact hget.bind fun _ => (follows_respond m verdict).mono fun _ _ => Quiet.quietGiven
  | read => exact hget.bind fun _ => .pure _
  | answered => exact hget.bind fun _ => .bind .get fun _ => .pure _
  | valid => exact .bind .get fun _ => .pure _

/-- A block, which can only name the messages that the handlers have been given. -/
theorem follows_exec (block : Program) : (c.exec block).Follows (Quiet c) := by
  induction block with
  | done => exact .pure ()
  | raise error => exact .raise _
  | call m method next ih =>
    intro s
    unfold exec
    split
    · next hm => exact trans_of (Quiet c) (follows_call m method s hm) (ih _ _)
    · exact ih _ s
  | close next ih =>
    intro s
    unfold exec
    exact trans_of (Quiet c) (trans_of (Quiet c) (quiet_disturb c s) (quiet_close c _)) (ih _)

/-! ## The clauses of `dispatch` -/

theorem follows_nativeMuteProcess (m : Nat) :
    (c.nativeMuteProcess m).Follows (Quiet c) := by
  refine .bind (.modify (quiet_disturb c)) fun _ => .bind .get fun s => ?_
  split
  · exact .raise _
  · exact .ofExcept _

theorem follows_muteEsClient (m : Nat) : (c.muteEsClient m).Follows (QuietGiven c m) := by
  have hread := follows_call (c := c) m .read
  unfold muteEsClient
  split
  · exact .pure _
  · refine hread.bind fun _ => ?_
    split
    · exact .raise _
    · refine hread.bind fun _ => .bind (.ofExcept _) fun esClient => ?_
      split
      · have hmute := (follows_nativeMuteProcess (c := c) m).mono fun _ _ h => h.quietGiven (m := m)
        exact hread.bind fun _ => hread.bind fun _ => hmute.bind fun _ => .pure _
      · exact .pure _

theorem follows_callHandler (m : Nat) : (c.callHandler m).Follows (QuietGiven c m) := by
  refine (follows_call m .read).bind fun _ => ?_
  split
  · exact .pure ()
  · refine .bind (.modify fun s _ => ?_) fun _ =>
      (follows_exec _).mono fun _ _ h => h.quietGiven
    exact { refl_of (Quiet c) s with handled := fun _ h => List.mem_append_left _ h }

theorem follows_body (m : Nat) : (c.body m).Follows (QuietGiven c m) := by
  refine (follows_muteEsClient m).bind fun muted => ?_
  split
  · exact .pure ()
  · exact follows_callHandler m

theorem follows_answerDefault (m : Nat) : (c.answerDefault m).Follows (QuietGiven c m) := by
  refine (follows_call m .read).bind fun _ => ?_
  split
  · refine (follows_call m .answered).bind fun answered => ?_
    split
    · exact (follows_call m _).bind fun _ => .pure ()
    · exact .pure ()
  · exact .pure ()

theorem follows_rescueClause (m : Nat) (error : Error) :
    (c.rescueClause m error).Follows (LaterGiven c m) := by
  have hanswer := (follows_answerDefault (c := c) m).mono fun _ _ => QuietGiven.laterGiven
  refine .bind (.modify fun s _ => { refl_of (Later c) s with }) fun _ => hanswer.bind fun _ => ?_
  unfold callErrorHandler
  split
  · exact .pure ()
  · refine .bind (.modify fun s _ => { refl_of (Later c) s with }) fun _ =>
      (follows_exec _).mono fun _ _ h _ => h.toLater

theorem quiet_autoRelease (hm : m < s.given) : Quiet c s (c.autoRelease m s) := by
  unfold autoRelease
  split
  · exact refl_of (Quiet c) s
  · exact quiet_messageRelease fun _ => hm

theorem quiet_ensureClause (hm : m < s.given) : Quiet c s (c.ensureClause m s) := by
  have hdisturb := quiet_disturb c s
  have hrelease := quiet_autoRelease (c := c) (hdisturb.given ▸ hm)
  refine trans_of (Quiet c) (trans_of (Quiet c) hdisturb hrelease) ?_
  unfold ensureClause
  dsimp only
  split
  · refine trans_of (Quiet c) ?_ (quiet_nativeClose c _)
    exact quiet_of_same rfl rfl rfl rfl rfl rfl rfl
  · exact quiet_of_same rfl rfl rfl rfl rfl rfl rfl

/-- After `__auto_release!` a message that is not retained is released. -/
theorem retired_autoRelease (hheld : ((c.autoRelease m s).message m).held = false) :
    ((c.autoRelease m s).message m).valid = false := by
  unfold autoRelease at hheld ⊢
  split
  · simp_all
  · exact messageRelease_valid c m s

theorem retired_ensureClause (hheld : ((c.ensureClause m s).message m).held = false) :
    ((c.ensureClause m s).message m).valid = false := by
  unfold ensureClause at hheld ⊢
  dsimp only at hheld ⊢
  split at hheld
  · next hclose =>
    rw [if_pos hclose]
    -- The native close neither retains nor releases the message
    have hquiet := quiet_nativeClose c
      { c.autoRelease m (c.disturb s) with dispatching := false, closeAfterDispatch := false }
    exact hquiet.released m (retired_autoRelease (hquiet.not_held hheld))
  · next hclose =>
    rw [if_neg hclose]
    exact retired_autoRelease hheld

/-! ## Reaching the handler -/

/-- The message is not one of an Endpoint Security client that is to be muted. -/
def Passes (c : Client) (m : Nat) : Prop :=
  c.muteEsClients = false ∨ c.esClient m = some (.ok false)

/-- The fields of an untouched message can be read. -/
theorem call_read_of_untouched (h : Untouched m s) :
    c.call m .read s = (.ok .field, c.disturb s) := by
  have := (untouched_disturb (c := c) h).1
  simp [call, getMessage, run_bind, this]

theorem muteEsClient_of_passes (hpasses : c.Passes m) (h : Untouched m s) :
    ∃ s', c.muteEsClient m s = (.ok false, s') ∧ Untouched m s' := by
  rcases Bool.eq_false_or_eq_true c.muteEsClients with hmute | hmute
  · have hclient : c.esClient m = some (.ok false) := hpasses.resolve_left (by simp [hmute])
    have h' := untouched_disturb (c := c) h
    refine ⟨c.disturb (c.disturb s), ?_, untouched_disturb h'⟩
    unfold muteEsClient
    rw [hmute, hclient, if_neg (by simp), bind_of_ok (call_read_of_untouched h)]
    dsimp only
    rw [bind_of_ok (call_read_of_untouched h')]
    rfl
  · exact ⟨s, by simp [muteEsClient, hmute], h⟩

/-- A message that passes reaches its handler. -/
theorem handled_body (hpasses : c.Passes m) (h : Untouched m s)
    (hhandler : (c.handlers (c.native.arrivals m).eventType).isSome) :
    m ∈ (c.body m s).2.handled := by
  obtain ⟨handler, hhandler⟩ := Option.isSome_iff_exists.mp hhandler
  obtain ⟨s', hmute, h'⟩ := muteEsClient_of_passes hpasses h
  unfold body
  rw [bind_of_ok hmute, if_neg (by simp), callHandler, bind_of_ok (call_read_of_untouched h'),
    hhandler]
  exact (follows_exec (c := c) (handler m) _).handled m (by simp)

end Client

end EndpointSecurity.Dispatch
