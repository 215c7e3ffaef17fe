import Sdpctl.Discipline.Logic

/-!
The rules of the operations. An assertion is `Firm` when it holds from one
operation of a turn to the next, and `Patient` when it holds over a wait.
-/

namespace Sdpctl

open FileTree Coop

/-- The assertion survives what happens between two operations of a turn. -/
def Firm (T : Terms) (r : Role) (P : Shared → Prop) : Prop :=
  ∀ s s', Onward T s s' → (r ≠ .cli → Quiet T s s') → Inv T s → Inv T s' → P s → P s'

/-- The assertion of a coroutine survives what happens while it waits. -/
def Patient (T : Terms) (r : Role) (P : Shared → Prop) : Prop :=
  ∀ s s', Onward T s s' → Keeps r s s' → Inv T s → Inv T s' → P s → P s'

/-- The assertion does not read the disk, the cache or the log of purges. -/
def Blind (P : Shared → Prop) : Prop :=
  ∀ s disk cache purged, P s → P { s with disk, purged, ctl := { s.ctl with cache } }

/-- The assertion survives the file operations of the role itself. -/
def Sturdy (T : Terms) (r : Role) (P : Shared → Prop) : Prop :=
  ∀ s disk purged, Inv T s → P s → Step T r s { s with disk, purged } → P { s with disk, purged }

def Uncached (P : Shared → Prop) : Prop :=
  ∀ s, P s → P { s with ctl := { s.ctl with cache := none } }

def Lasting (T : Terms) (P : Shared → Prop) : Prop := ∀ s s', Onward T s s' → P s → P s'

/-- The assertion reads the tasks and the runners only, and is firm. -/
structure Frame (T : Terms) (r : Role) (P : Shared → Prop) : Prop where
  firm : Firm T r P
  rooted : ∀ s db disk cache free purged, P s →
    P { s with db, disk, purged, ctl := { s.ctl with cache, free } }

/-- A program of the role, verified by the logic of the system. -/
abbrev Verified {α : Type} (T : Terms) (r : Role) (P : Shared → Prop) (p : M α)
    (Q : α → Shared → Prop) (E : Exn → Shared → Prop) : Prop := (discipline T).Triple r P p Q E

variable {T : Terms} {r : Role} {P P' : Shared → Prop} {α β : Type}

theorem Firm.and (h : Firm T r P) (h' : Firm T r P') : Firm T r fun s => P s ∧ P' s :=
  fun s s' hon hq hinv hinv' hP => ⟨h s s' hon hq hinv hinv' hP.1, h' s s' hon hq hinv hinv' hP.2⟩

theorem Firm.const (φ : Prop) : Firm T r fun _ => φ := fun _ _ _ _ _ _ h => h

theorem Patient.and (h : Patient T r P) (h' : Patient T r P') : Patient T r fun s => P s ∧ P' s :=
  fun s s' hon hk hinv hinv' hP => ⟨h s s' hon hk hinv hinv' hP.1, h' s s' hon hk hinv hinv' hP.2⟩

/-- What a coroutine finds again after a wait also survives the rest of its turn. -/
theorem Patient.firm (hr : r ≠ .cli) (h : Patient T r P) : Firm T r P :=
  fun s s' hon hq => h s s' hon (hq hr).keeps

theorem Blind.and (h : Blind P) (h' : Blind P') : Blind fun s => P s ∧ P' s :=
  fun s d c u hP => ⟨h s d c u hP.1, h' s d c u hP.2⟩

theorem Blind.sturdy (h : Blind P) : Sturdy T r P := fun s d u _ hP _ => h s d s.ctl.cache u hP

theorem Blind.uncached (h : Blind P) : Uncached P := fun s hP => h s s.disk none s.purged hP

theorem Uncached.and (h : Uncached P) (h' : Uncached P') : Uncached fun s => P s ∧ P' s :=
  fun s hP => ⟨h s hP.1, h' s hP.2⟩

theorem Lasting.firm (h : Lasting T P) : Firm T r P := fun s s' hon _ _ _ => h s s' hon

theorem Lasting.sturdy (h : Lasting T P) : Sturdy T r P :=
  fun s _ _ hinv hP hstep => h s _ (hstep.onward hinv) hP

theorem Lasting.uncached (h : Lasting T P) : Uncached P :=
  fun s => h s _ (.of_same rfl rfl (List.Subset.refl _))

theorem Frame.blind (h : Frame T r P) : Blind P :=
  fun s d c u => h.rooted s s.db d c s.ctl.free u

theorem Frame.db (h : Frame T r P) {s : Shared} (db : Db) (hP : P s) : P { s with db } :=
  h.rooted s db s.disk s.ctl.cache s.ctl.free s.purged hP

theorem Frame.free (h : Frame T r P) {s : Shared} (free : Nat) (hP : P s) :
    P { s with ctl := { s.ctl with free } } :=
  h.rooted s s.db s.disk s.ctl.cache free s.purged hP

theorem Frame.none (T : Terms) (r : Role) : Frame T r fun _ => True :=
  ⟨.const True, fun _ _ _ _ _ _ h => h⟩

theorem Sturdy.and (h : Sturdy T r P) (h' : Sturdy T r P') : Sturdy T r fun s => P s ∧ P' s :=
  fun s d u hinv hP hstep => ⟨h s d u hinv hP.1 hstep, h' s d u hinv hP.2 hstep⟩

theorem Firm.stable (h : Firm T r P) {o : Op} (hsync : awaits o = false) :
    (discipline T).Stable r o P := by
  intro s s' hrely hinv hinv'
  refine h s s' hrely.1 (fun hr => hrely.2.2 ?_) hinv hinv'
  simp [Logic.open_, system, hsync, hr]

theorem Patient.stable (h : Patient T r P) (hr : r ≠ .cli) {o : Op} :
    (discipline T).Stable r o P :=
  fun s s' hrely hinv hinv' => h s s' hrely.1 (hrely.2.1 hr) hinv hinv'

section Look

variable {Q : α → Shared → Prop} {E : Exn → Shared → Prop}

theorem Verified.look {o : Op} {Q : o.Reply → Shared → Prop} (hsync : awaits o = false)
    (hfirm : Firm T r P) (hallowed : ∀ s, Inv T s → P s → allowed T r s o)
    (hexec : ∀ s c x s', Inv T s → P s → okRun T o c s → exec r o c s = some (x, s') →
      s' = s ∧ Logic.split Q E x s) : Verified T r P (call o) Q E := by
  refine Logic.Triple.call (hfirm.stable hsync) fun s c hinv hP hok =>
    ⟨hallowed s hinv hP, fun x s' hx _ => ?_⟩
  obtain ⟨rfl, hpost⟩ := hexec s c x s' hinv hP hok hx
  exact hpost

theorem Shared.reading_cases {p : Path} {s s' : Shared} {c : Choice} {x y : Except Exn α}
    (h : s.reading c p x = some (y, s')) :
    s' = s ∧ (y = x ∨ (c = .fail ∧ y = .error (.osError p))) := by
  unfold Shared.reading at h
  split at h
  · cases h
    exact ⟨rfl, .inl rfl⟩
  · cases h
    exact ⟨rfl, .inr ⟨rfl, rfl⟩⟩
  · cases h

theorem okRun.faulty {o : Op} {c : Choice} {s : Shared} (h : okRun T o c s)
    (hfiles : o.onFiles = true)
    (hc : c.faulty = true) : T ≠ .faultless := by
  intro hT
  have hno := h.2 hT hfiles
  rw [hc] at hno
  cases hno

/-- A call of the file system that reads: the value it looks up, or a failure. -/
theorem Verified.read {o : Op} {Q : o.Reply → Shared → Prop} (p : Path)
    (val : Shared → Except Exn o.Reply) (hfiles : o.onFiles = true) (hsync : awaits o = false)
    (hexec : ∀ s c, exec r o c s = s.reading c p (val s)) (hallowed : ∀ s, allowed T r s o)
    (hfirm : Firm T r P) (hval : ∀ s, Inv T s → P s → Logic.split Q E (val s) s)
    (hfail : ∀ s, Inv T s → P s → T ≠ .faultless → E (.osError p) s) :
    Verified T r P (call o) Q E := by
  refine .look hsync hfirm (fun s _ _ => hallowed s) fun s c x s' hinv hP hok hx => ?_
  rw [hexec] at hx
  obtain ⟨rfl, rfl | ⟨rfl, rfl⟩⟩ := Shared.reading_cases hx
  · exact ⟨rfl, hval s' hinv hP⟩
  · exact ⟨rfl, hfail s' hinv hP (hok.faulty hfiles rfl)⟩

theorem exists_rule (p : Path) (hfirm : Firm T r P) :
    Verified T r P (call (.exists_ p)) (fun b s => P s ∧ s.disk.has p = b)
      (fun _ s => P s ∧ T ≠ .faultless) :=
  .read p (fun s => .ok (s.disk.has p)) rfl rfl (fun _ _ => rfl) (fun _ => trivial) hfirm
    (fun _ _ hP => ⟨hP, rfl⟩) fun _ _ hP hT => ⟨hP, hT⟩

theorem isDir_rule (p : Path) (hfirm : Firm T r P) :
    Verified T r P (call (.isDir p)) (fun b s => P s ∧ s.disk.isDirAt p = b)
      (fun _ s => P s ∧ T ≠ .faultless) :=
  .read p (fun s => .ok (s.disk.isDirAt p)) rfl rfl (fun _ _ => rfl) (fun _ => trivial) hfirm
    (fun _ _ hP => ⟨hP, rfl⟩) fun _ _ hP hT => ⟨hP, hT⟩

theorem isFile_rule (p : Path) (hfirm : Firm T r P) :
    Verified T r P (call (.isFile p)) (fun b s => P s ∧ s.disk.isFileAt p = b)
      (fun e s => P s ∧ e = .osError p ∧ T ≠ .faultless) :=
  .read p (fun s => .ok (s.disk.isFileAt p)) rfl rfl (fun _ _ => rfl) (fun _ => trivial) hfirm
    (fun _ _ hP => ⟨hP, rfl⟩) fun _ _ hP hT => ⟨hP, rfl, hT⟩

theorem resolve_rule (p : Path) (hfirm : Firm T r P) :
    Verified T r P (call (.resolve p)) (fun q s => P s ∧ q = p)
      (fun _ s => P s ∧ T ≠ .faultless) :=
  .read p (fun _ => .ok p) rfl rfl (fun _ _ => rfl) (fun _ => trivial) hfirm
    (fun _ _ hP => ⟨hP, rfl⟩) fun _ _ hP hT => ⟨hP, hT⟩

theorem rglob_rule (p : Path) (hfirm : Firm T r P) :
    Verified T r P (call (.rglob p)) (fun ps s => P s ∧ ps = s.disk.rglob p)
      (fun _ s => P s ∧ T ≠ .faultless) :=
  .read p (fun s => .ok (s.disk.rglob p)) rfl rfl (fun _ _ => rfl) (fun _ => trivial) hfirm
    (fun _ _ hP => ⟨hP, rfl⟩) fun _ _ hP hT => ⟨hP, hT⟩

theorem entryCount_rule (p : Path) (hfirm : Firm T r P) :
    Verified T r P (call (.entryCount p)) (fun _ => P) (fun _ s => P s ∧ T ≠ .faultless) :=
  .read p (fun s => .ok (s.disk.entryCount p)) rfl rfl (fun _ _ => rfl) (fun _ => trivial) hfirm
    (fun _ _ hP => hP) fun _ _ hP hT => ⟨hP, hT⟩

theorem statSize_rule (p : Path) (hfirm : Firm T r P) :
    Verified T r P (call (.statSize p))
      (fun n s => P s ∧ ∃ t, s.disk.get? p = some t ∧ n = t.statSize)
      (fun e s => P s ∧ ((e = .fileNotFoundError p ∧ s.disk.get? p = none) ∨
        (e = .osError p ∧ T ≠ .faultless))) := by
  refine .read p (fun s => s.disk.statSize p) rfl rfl (fun _ _ => rfl) (fun _ => trivial) hfirm
    (fun s _ hP => ?_) fun _ _ hP hT => ⟨hP, .inr ⟨rfl, hT⟩⟩
  unfold Disk.statSize
  cases hget : s.disk.get? p with
  | none => exact ⟨hP, .inl ⟨rfl, hget⟩⟩
  | some t => exact ⟨hP, t, hget, rfl⟩

theorem statMtime_rule (p : Path) (hfirm : Firm T r P) :
    Verified T r P (call (.statMtime p)) (fun n s => P s ∧ n = s.disk.mtime p)
      (fun _ s => P s ) := by
  refine .read p (fun s => s.disk.statMtime p) rfl rfl (fun _ _ => rfl) (fun _ => trivial) hfirm
    (fun s _ hP => ?_) fun _ _ hP _ => hP
  unfold Disk.statMtime
  split
  · exact ⟨hP, rfl⟩
  · exact hP

theorem ask_rule (q : Query) (hread : ∀ db a db', q.run db = .ok (a, db') → db' = db)
    (hallowed : ∀ s, allowed T r s (.db q)) (hfirm : Firm T r P) :
    Verified T r P (store q) (fun a s => P s ∧ q.run s.db = .ok (a, s.db))
      (fun e s => P s ∧ (e = .sqliteError ∨ q.run s.db = .error e)) := by
  refine .look rfl hfirm (fun s _ _ => hallowed s) fun s c x s' hinv hP hok hx => ?_
  simp only [exec, Shared.query] at hx
  split at hx
  · split at hx
    · rename_i a db hrun
      obtain rfl := hread _ _ _ hrun
      cases hx
      exact ⟨rfl, hP, hrun⟩
    · rename_i e hrun
      cases hx
      exact ⟨rfl, hP, .inr hrun⟩
  · cases hx
    exact ⟨rfl, hP, .inl rfl⟩
  · cases hx

theorem query_rule (q : Query) (val : Db → q.Reply) (hrun : ∀ db, q.run db = .ok (val db, db))
    (hallowed : ∀ s, allowed T r s (.db q)) (hfirm : Firm T r P) :
    Verified T r P (store q) (fun a s => P s ∧ a = val s.db) (fun _ => P) := by
  refine (ask_rule q ?_ hallowed hfirm).conseq (fun _ _ h => h) ?_ fun _ _ _ h => h.1
  · intro db a db' h
    rw [hrun] at h
    cases h
    rfl
  · rintro a s _ ⟨hP, h⟩
    rw [hrun] at h
    cases h
    exact ⟨hP, rfl⟩

theorem getObservation_rule (oid : Nat) (hfirm : Firm T r P) :
    Verified T r P (store (.getObservation oid)) (fun o s => P s ∧ s.db.obs? oid = some o)
      (fun _ => P) := by
  refine (ask_rule (.getObservation oid) (fun _ _ _ h => (getObservation_ok h).2)
    (fun _ => trivial) hfirm).conseq (fun _ _ h => h) ?_ fun _ _ _ h => h.1
  rintro o s _ ⟨hP, h⟩
  exact ⟨hP, (getObservation_ok h).1⟩

theorem getRun_rule (rid : Nat) (hfirm : Firm T r P) :
    Verified T r P (store (.getRun rid)) (fun q s => P s ∧ s.db.run? rid = some q)
      (fun _ => P) := by
  refine (ask_rule (.getRun rid) (fun _ _ _ h => (getRun_ok h).2)
    (fun _ => trivial) hfirm).conseq (fun _ _ h => h) ?_ fun _ _ _ h => h.1
  rintro q s _ ⟨hP, h⟩
  exact ⟨hP, (getRun_ok h).1⟩

end Look

theorem change_rule (q : Query) {Q : q.Reply → Shared → Prop} {E : Exn → Shared → Prop}
    (hfirm : Firm T r P) (hallowed : ∀ s, Inv T s → P s → allowedQuery T r s q)
    (hok : ∀ s a db, Inv T s → P s → q.run s.db = .ok (a, db) → Inv T { s with db } →
      Q a { s with db })
    (herr : ∀ s e, Inv T s → P s → e = .sqliteError ∨ q.run s.db = .error e → E e s) :
    Verified T r P (store q) Q E := by
  refine Logic.Triple.call (hfirm.stable rfl) fun s c hinv hP _ =>
    ⟨hallowed s hinv hP, fun x s' hx hinv' => ?_⟩
  change s.query c q = some (x, s') at hx
  unfold Shared.query at hx
  split at hx
  · split at hx
    · rename_i a db hrun
      cases hx
      exact hok s a db hinv hP hrun hinv'
    · rename_i e hrun
      cases hx
      exact herr s e hinv hP (.inr hrun)
  · cases hx
    exact herr s _ hinv hP (.inl rfl)
  · cases hx

/-- What a guarded transition raises: the database failed, or the guard did. -/
def Refused (e : Exn) (φ : Prop) : Prop := e = .sqliteError ∨ ((∃ m, e = .transitionError m) ∧ φ)

theorem transitionObservation_rule {oid : Nat} {expected new : ObservationState} {reason : String}
    {size reserved : Option Nat} {error : Option String} {Q : Unit → Shared → Prop}
    {E : Exn → Shared → Prop} (hlegal : new ∈ obsTransitions expected) (hfirm : Firm T r P)
    (hmay : ∀ s, Inv T s → P s → ∀ o, s.db.obs? oid = some o → o.state = expected →
      ObsMove T r s o { o with
        state := new, sizeBytes := size.getD o.sizeBytes,
        reservedBytes := reserved.getD o.reservedBytes, error := error <|> o.error })
    (hok : ∀ s db o, Inv T s → P s → o.id = oid → o.state = expected → Db.ObsStep s.db db o { o with
        state := new, sizeBytes := size.getD o.sizeBytes,
        reservedBytes := reserved.getD o.reservedBytes, error := error <|> o.error } →
      Q () { s with db })
    (herr : ∀ s e, Inv T s → P s →
      Refused e (∀ o, s.db.obs? oid = some o → o.state ≠ expected) → E e s) :
    Verified T r P (store (.transitionObservation oid expected new reason size reserved error))
      Q E := by
  refine change_rule _ hfirm hmay ?_ ?_
  · rintro s ⟨⟩ db hinv hP hrun _
    obtain ⟨db', hdb, heq⟩ := map_ok hrun
    cases heq
    obtain ⟨_, o, hid, hstate, step⟩ := Db.transitionObservation_ok hinv.db.ids hdb
    exact hok s _ o hinv hP hid hstate step
  · rintro s e hinv hP (he | hrun)
    · exact herr s e hinv hP (.inl he)
    · exact herr s e hinv hP (.inr (Db.transitionObservation_error hinv.db.ids hlegal
        (map_error hrun)))

theorem transitionRun_rule {rid : Nat} {expected new : RunState} {reason : String}
    {code : Option Int} {Q : Unit → Shared → Prop} {E : Exn → Shared → Prop}
    (hlegal : new ∈ runTransitions expected) (hfirm : Firm T r P)
    (hmay : ∀ s, Inv T s → P s → ∀ q, s.db.run? rid = some q → q.state = expected →
      RunMove r s q { q with state := new, exitCode := code <|> q.exitCode })
    (hok : ∀ s db q, Inv T s → P s → q.id = rid → q.state = expected → Db.RunStep s.db db q { q with
        state := new, exitCode := code <|> q.exitCode } → Q () { s with db })
    (herr : ∀ s e, Inv T s → P s →
      Refused e (∀ q, s.db.run? rid = some q → q.state ≠ expected) → E e s) :
    Verified T r P (store (.transitionRun rid expected new reason code)) Q E := by
  refine change_rule _ hfirm hmay ?_ ?_
  · rintro s ⟨⟩ db hinv hP hrun _
    obtain ⟨db', hdb, heq⟩ := map_ok hrun
    cases heq
    obtain ⟨_, q, hid, hstate, step⟩ := Db.transitionRun_ok hinv.db.ids hdb
    exact hok s _ q hinv hP hid hstate step
  · rintro s e hinv hP (he | hrun)
    · exact herr s e hinv hP (.inl he)
    · exact herr s e hinv hP (.inr (Db.transitionRun_error hinv.db.ids hlegal (map_error hrun)))

/-- `with suppress(TransitionError)`. -/
theorem suppressTransitionError_rule {p : M Unit} {Q : Unit → Shared → Prop}
    {A φ : Shared → Prop} {E : Exn → Shared → Prop}
    (h : Verified T r P p Q fun e s => A s ∧ Refused e (φ s))
    (hQ : ∀ s, Inv T s → A s → φ s → Q () s) (hE : ∀ s, Inv T s → A s → E .sqliteError s) :
    Verified T r P (suppressTransitionError p) Q E := by
  refine .catchAll h fun e => ?_
  split
  · refine .pure fun s hinv hs => ?_
    rcases hs.2 with he | ⟨_, hφ⟩
    · cases he
    · exact hQ s hinv hs.1 hφ
  · rename_i hother
    refine .raise fun s hinv hs => ?_
    rcases hs.2 with rfl | ⟨⟨m, rfl⟩, _⟩
    · exact hE s hinv hs.1
    · exact absurd rfl (hother m)

/-- `record_event`, and every other change that nobody looks at. -/
theorem note_rule (q : Query) (hframe : Frame T r P) (hallowed : ∀ s, allowedQuery T r s q) :
    Verified T r P (store q) (fun _ => P) (fun _ => P) :=
  change_rule q hframe.firm (fun s _ _ => hallowed s) (fun _ _ db _ hP _ _ => hframe.db db hP)
    fun _ _ _ hP _ => hP

/-- An operation at which a coroutine waits and that leaves the state alone. -/
theorem wait_rule {o : Op} {Q : o.Reply → Shared → Prop} {E : Exn → Shared → Prop} (hr : r ≠ .cli)
    (hpatient : Patient T r P) (hallowed : ∀ s, Inv T s → P s → allowed T r s o)
    (hexec : ∀ s c x s', Inv T s → P s → exec r o c s = some (x, s') →
      s' = s ∧ Logic.split Q E x s) : Verified T r P (call o) Q E := by
  refine Logic.Triple.call (hpatient.stable hr) fun s c hinv hP _ =>
    ⟨hallowed s hinv hP, fun x s' hx _ => ?_⟩
  obtain ⟨rfl, hpost⟩ := hexec s c x s' hinv hP hx
  exact hpost

/-- `await asyncio.sleep(...)`, and the first step of a task. -/
theorem pause_rule {o : Op} (ho : o = .taskStart ∨ o = .sleep) {E : Exn → Shared → Prop}
    (hr : r ≠ .cli) (hpatient : Patient T r P) : Verified T r P (call o) (fun _ => P) E := by
  refine wait_rule hr hpatient (fun _ _ _ => by rcases ho with rfl | rfl <;> trivial)
    fun s c x s' _ hP hx => ?_
  rcases ho with rfl | rfl <;> cases c <;> cases hx <;> exact ⟨rfl, hP⟩

section Memory

theorem memory_rule {o : Op} {E : Exn → Shared → Prop} (val : Shared → o.Reply)
    (hsync : awaits o = false) (hexec : ∀ s c, exec r o c s = Shared.sure c (.ok (val s)) s)
    (hfirm : Firm T r P) (hallowed : ∀ s, Inv T s → P s → allowed T r s o) :
    Verified T r P (call o) (fun a s => P s ∧ a = val s) E := by
  refine .look hsync hfirm hallowed fun s c x s' _ hP _ hx => ?_
  rw [hexec] at hx
  unfold Shared.sure at hx
  split at hx
  · cases hx
    exact ⟨rfl, hP, rfl⟩
  · cases hx

variable {E : Exn → Shared → Prop}

theorem obsTaskLive_rule (oid : Nat) (hfirm : Firm T r P) :
    Verified T r P (call (.obsTaskLive oid)) (fun b s => P s ∧ b = s.ctl.live .observe oid) E :=
  memory_rule (o := .obsTaskLive oid) (fun s => s.ctl.live .observe oid)
    rfl (fun _ _ => rfl) hfirm fun _ _ _ => trivial

theorem runTaskLive_rule (rid : Nat) (hfirm : Firm T r P) :
    Verified T r P (call (.runTaskLive rid)) (fun b s => P s ∧ b = s.ctl.live .process rid) E :=
  memory_rule (o := .runTaskLive rid) (fun s => s.ctl.live .process rid)
    rfl (fun _ _ => rfl) hfirm fun _ _ _ => trivial

theorem cacheGet_rule (hfirm : Firm T r P) :
    Verified T r P (call .cacheGet) (fun e s => P s ∧ e = if r = .cli then none else s.ctl.cache)
      E :=
  memory_rule (o := .cacheGet) (fun s => if r = .cli then none else s.ctl.cache)
    rfl (fun _ _ => rfl) hfirm
    fun _ _ _ => trivial

theorem cachePop_rule (hfirm : Firm T r P) (hkeep : Uncached P) :
    Verified T r P (call .cachePop) (fun _ => P) E := by
  refine Logic.Triple.call (hfirm.stable rfl) fun s c _ hP _ => ⟨trivial, fun x s' hx _ => ?_⟩
  change Shared.sure c (.ok ()) _ = some (x, s') at hx
  unfold Shared.sure at hx
  split at hx
  · cases hx
    change P _
    split
    · exact hP
    · exact hkeep s hP
  · cases hx

theorem invalidateAuxiliaryCache_rule (hfirm : Firm T r P) (hkeep : Uncached P) :
    Verified T r P invalidateAuxiliaryCache (fun _ => P) (fun _ s => P s ∧ T ≠ .faultless) :=
  .bind (resolve_rule [] hfirm) fun _ =>
    (cachePop_rule hfirm hkeep).pre fun _ _ h => h.1

end Memory

section Write

theorem mkdir_rule {p : Path} (hp : p = quarantineRoot ∨ p = trashRoot) (hfirm : Firm T r P) :
    Verified T r P (call (.mkdir p)) (fun _ => P) (fun _ s => P s ∧ T ≠ .faultless) := by
  refine .look rfl hfirm (fun _ _ _ => hp) fun s c x s' hinv hP hok hx => ?_
  simp only [exec, Shared.writing, Disk.mkdir_of_isDir (hinv.disk.isDir hp)] at hx
  split at hx
  · cases hx
    exact ⟨rfl, hP⟩
  · cases hx
    exact ⟨rfl, hP, hok.faulty rfl rfl⟩
  · cases hx

theorem DiskOk.get?_child {db : Db} {d : Disk} (h : DiskOk db d) (name : String)
    (x : Option Tree) :
    (d.put (observationsRoot ++ [name]) x).get? (observationsRoot ++ [name]) = x :=
  Disk.get?_put_self h.observations

theorem quarantine_rule {F : Shared → Prop} {name label : String} (hfirm : Firm T r P)
    (hextra : Firm T r F) (hkeep : Sturdy T r P)
    (hmay : ∀ s, Inv T s → P s → F s → Quarantines r s name label) :
    Verified T r (fun s => P s ∧ F s)
      (call (.rename (observationsRoot ++ [name]) (quarantineEntry label)))
      (fun _ s => P s ∧ s.disk.absent (observationsRoot ++ [name]))
      (fun _ s => P s ∧ (T ≠ .faultless ∨ F s ∧ s.disk.absent (observationsRoot ++ [name]))) := by
  have hallowed : ∀ s, Inv T s → P s → F s →
      allowed T r s (.rename (observationsRoot ++ [name]) (quarantineEntry label)) :=
    fun s hinv hP hF => .inl ⟨name, label, rfl, rfl, hmay s hinv hP hF⟩
  refine Logic.Triple.call ((hfirm.and hextra).stable rfl) fun s c hinv hP hok =>
    ⟨hallowed s hinv hP.1 hP.2, fun x s' hx _ => ?_⟩
  have hstep := exec_step hinv (hallowed s hinv hP.1 hP.2) hx
  change s.writing c _ _ = some (x, s') at hx
  unfold Shared.writing at hx
  split at hx
  · cases hget : s.disk.get? (observationsRoot ++ [name]) with
    | none =>
      simp only [Disk.rename, hget] at hx
      cases hx
      exact ⟨hP.1, .inr ⟨hP.2, hget⟩⟩
    | some t =>
      rw [Disk.rename_free hget (hmay s hinv hP.1 hP.2).free hinv.disk.quarantine
        (by simp [observationsRoot, quarantineEntry, List.isPrefixOf])
        (by simp [observationsRoot, quarantineEntry, List.isPrefixOf])] at hx
      cases hx
      refine ⟨hkeep s _ s.purged hinv hP.1 hstep, ?_⟩
      refine (Disk.get?_put_apart _ _ ?_).trans (hinv.disk.get?_child name none)
      simp [observationsRoot, quarantineEntry]
  · cases hx
    exact ⟨hP.1, .inl (hok.faulty rfl rfl)⟩
  · cases hx

theorem trash_rule {oid : Nat} (hfirm : Firm T r P) (hkeep : Sturdy T r P)
    (hmay : ∀ s, Inv T s → P s → GivenUp r s oid) :
    Verified T r P (call (.rename (msPathOf oid) (trashPath oid)))
      (fun _ s => P s ∧ s.disk.absent (msPathOf oid)) (fun _ => P) := by
  have hallowed : ∀ s, Inv T s → P s → allowed T r s (.rename (msPathOf oid) (trashPath oid)) :=
    fun s hinv hP => .inr ⟨oid, rfl, rfl, hmay s hinv hP⟩
  refine Logic.Triple.call (hfirm.stable rfl) fun s c hinv hP _ =>
    ⟨hallowed s hinv hP, fun x s' hx _ => ?_⟩
  have hstep := exec_step hinv (hallowed s hinv hP) hx
  change s.writing c _ _ = some (x, s') at hx
  unfold Shared.writing at hx
  split at hx
  · split at hx
    · rename_i disk hdisk
      obtain ⟨t, ht, rfl⟩ := Disk.rename_ok hdisk
      cases hx
      refine ⟨hkeep s _ s.purged hinv hP hstep, ?_⟩
      refine (Disk.get?_put_apart _ _ ?_).trans (hinv.disk.get?_child (obsName oid) none)
      simp [msPathOf, trashPath]
    · cases hx
      exact hP
  · cases hx
    exact hP
  · cases hx

/-- The removal of a tree or of a file; what is left when it stops is its own affair. -/
theorem removal_rule {p : Path} {x : Except Exn Disk} {part : Tree → Option Disk} {s s' : Shared}
    {c : Choice} {y : Except Exn Unit} (hkeep : Sturdy T r P) (hinv : Inv T s) (hP : P s)
    (hstep : Step T r s s') (hx : s.removing c p x part = some (y, s')) :
    P s' ∧ (∀ a, y = .ok a → ∃ disk, x = .ok disk ∧ s'.disk = disk) := by
  have hnote : ∀ disk, { s.notePurge p with disk } =
      { s with disk, purged := (s.notePurge p).purged } := by
    intro disk
    unfold Shared.notePurge
    split <;> rfl
  unfold Shared.removing at hx
  split at hx
  · rename_i t
    obtain ⟨disk, _, heq⟩ := Option.map_eq_some_iff.mp hx
    cases heq
    rw [hnote] at hstep ⊢
    exact ⟨hkeep s _ _ hinv hP hstep, by simp⟩
  · split at hx
    · rename_i disk
      cases hx
      rw [hnote] at hstep ⊢
      exact ⟨hkeep s _ _ hinv hP hstep, fun _ _ => ⟨disk, rfl, rfl⟩⟩
    · cases hx
      exact ⟨hP, by simp⟩
  · cases hx
    exact ⟨hP, by simp⟩
  · cases hx

/-- The name in a directory of the layout is free. -/
def Gone (p : Path) (s : Shared) : Prop :=
  ∀ dir ∈ layout, ∀ n, p = [dir, n] → s.disk.absent p

theorem DiskOk.gone {s : Shared} {db : Db} {d : Disk} (h : DiskOk db d) {p : Path}
    (hdisk : s.disk = d.put p none) : Gone p s := by
  rintro dir hdir n rfl
  rw [hdisk]
  exact Disk.get?_put_self (p := [dir]) (h.dirs dir hdir)

theorem rmtree_rule {p : Path} (hfirm : Firm T r P) (hkeep : Sturdy T r P)
    (hmay : ∀ s, Inv T s → P s → Removable r s p) :
    Verified T r P (call (.rmtree p)) (fun _ s => P s ∧ Gone p s) (fun _ => P) := by
  refine Logic.Triple.call (hfirm.stable rfl) fun s c hinv hP _ =>
    ⟨hmay s hinv hP, fun x s' hx _ => ?_⟩
  have hstep := exec_step (o := .rmtree p) hinv (hmay s hinv hP) hx
  obtain ⟨hP', hgone⟩ := removal_rule hkeep hinv hP hstep hx
  cases x with
  | error e => exact hP'
  | ok a =>
    obtain ⟨disk, hdisk, heq⟩ := hgone a rfl
    obtain ⟨t, _, rfl⟩ := Disk.rmtree_ok hdisk
    exact ⟨hP', hinv.disk.gone heq⟩

theorem unlink_rule {p : Path} (hfirm : Firm T r P) (hkeep : Sturdy T r P)
    (hmay : ∀ s, Inv T s → P s → Removable r s p) :
    Verified T r P (call (.unlink p)) (fun _ s => P s ∧ Gone p s) (fun _ => P) := by
  refine Logic.Triple.call (hfirm.stable rfl) fun s c hinv hP _ =>
    ⟨hmay s hinv hP, fun x s' hx _ => ?_⟩
  have hstep := exec_step (o := .unlink p) hinv (hmay s hinv hP) hx
  obtain ⟨hP', hgone⟩ := removal_rule hkeep hinv hP hstep hx
  cases x with
  | error e => exact hP'
  | ok a =>
    obtain ⟨disk, hdisk, heq⟩ := hgone a rfl
    obtain ⟨t, _, rfl⟩ := Disk.unlink_ok hdisk
    exact ⟨hP', hinv.disk.gone heq⟩

end Write

end Sdpctl
