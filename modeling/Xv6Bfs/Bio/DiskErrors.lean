import Xv6Bfs.Bio.Transfers

namespace Xv6Bfs.Bio

open Lib.Execution Function

namespace World

variable {P D : Type} {w w' : World P D} {p : P} {b : Fin NBUF} {status : UInt8} {data : D}

def Current (dev blockno : ℕ) (data : D) (l : List (Event D)) : Prop :=
  ∃ t, last dev blockno l = some t ∧ (t.Successful → t.data = data)

/-- What holds of the data in the buffers, on the way to the disk, and returned by `bread`. -/
structure Faithful (w : World P D) : Prop where
  held : ∀ b, (w.cache.buf b).valid = true → (w.cache.buf b).dirty = false → w.changed b = false →
    Current (w.cache.buf b).dev (w.cache.buf b).blockno (w.cache.buf b).data w.log
  sent : w.cache.idequeue ≠ [] → w.sent = w.cache.outgoing
  returned : ∀ newer older dev blockno data,
    w.log = newer ++ .bread dev blockno data :: older → Current dev blockno data older

theorem outgoing_congr {s s' : State P D} (hhead : s'.idequeue.head? = s.idequeue.head?)
    (hbuf : ∀ b ∈ s.idequeue, (s'.buf b).dirty = (s.buf b).dirty ∧ (s'.buf b).data = (s.buf b).data) :
    s'.outgoing = s.outgoing := by
  unfold State.outgoing
  rw [hhead]
  cases hq : s.idequeue with
  | nil => rfl
  | cons b queue =>
    obtain ⟨hdirty, hdata⟩ := hbuf b (by simp [hq])
    simp [hdirty, hdata]

theorem Faithful.of_update (h : Faithful w) {v : Buf P D} {c : Bool}
    (hbuf : w'.cache.buf = update w.cache.buf b v) (hchanged : w'.changed = update w.changed b c)
    (hlog : w'.log = w.log) (hsent : w'.cache.idequeue ≠ [] → w'.sent = w'.cache.outgoing)
    (hheld : v.valid = true → v.dirty = false → c = false → Current v.dev v.blockno v.data w.log) :
    Faithful w' where
  held b' := by
    rw [hbuf, hchanged, hlog]
    rcases eq_or_ne b' b with rfl | hne
    · simp only [update_self]
      exact hheld
    · simp only [update_of_ne hne]
      exact h.held b'
  sent := hsent
  returned := by
    rw [hlog]
    exact h.returned

theorem Faithful.of_same (h : Faithful w) {v : Buf P D}
    (hbuf : w'.cache.buf = update w.cache.buf b v) (hchanged : w'.changed = w.changed)
    (hlog : w'.log = w.log) (hqueue : w'.cache.idequeue = w.cache.idequeue) (hsent : w'.sent = w.sent)
    (hv : v.valid = true → v.dirty = (w.cache.buf b).dirty ∧ (w.cache.buf b).valid = true ∧
      v.dev = (w.cache.buf b).dev ∧ v.blockno = (w.cache.buf b).blockno)
    (hdata : v.data = (w.cache.buf b).data)
    (hdirty : b ∈ w.cache.idequeue → v.dirty = (w.cache.buf b).dirty) : Faithful w' := by
  refine h.of_update (c := w.changed b) hbuf (by rw [hchanged, update_eq_self]) hlog (fun hne ↦ ?_)
    (fun hvalid hd hc ↦ ?_)
  · rw [hqueue] at hne
    rw [hsent, h.sent hne]
    refine (outgoing_congr (by rw [hqueue]) fun b' hb' ↦ ?_).symm
    rw [hbuf]
    rcases eq_or_ne b' b with rfl | hne
    · rw [update_self]
      exact ⟨hdirty hb', hdata⟩
    · rw [update_of_ne hne]
      exact ⟨rfl, rfl⟩
  · obtain ⟨hd', hvalid', hdev, hblockno⟩ := hv hvalid
    rw [hdev, hblockno, hdata]
    exact h.held b hvalid' (hd' ▸ hd) hc

theorem Faithful.enqueue (h : Faithful w) {s : State P D} {v : Buf P D} {changed : Fin NBUF → Bool}
    {c : Bool} (hb : b ∉ w.cache.idequeue) (hbuf : s.buf = update w.cache.buf b v)
    (hqueue : s.idequeue = w.cache.idequeue ++ [b]) (hchanged : changed = update w.changed b c)
    (hv : v.valid = true → v.dirty = true) :
    Faithful { w.enqueues s with changed := changed } := by
  refine h.of_update hbuf hchanged rfl (fun _ ↦ ?_) (fun hvalid hd ↦ ?_)
  · change (if w.cache.idequeue = [] then s.outgoing else w.sent) = s.outgoing
    split
    · rfl
    · rename_i hne
      rw [h.sent hne]
      refine (outgoing_congr ?_ fun b' hb' ↦ ?_).symm
      · rw [hqueue, List.head?_append_of_ne_nil _ hne]
      · rw [hbuf, update_of_ne (ne_of_mem_of_not_mem hb' hb)]
        exact ⟨rfl, rfl⟩
  · rw [hv hvalid] at hd
    cases hd

theorem Current.bread {dev blockno dev' blockno' : ℕ} {data data' : D} {l : List (Event D)}
    (h : Current dev blockno data l) : Current dev blockno data (.bread dev' blockno' data' :: l) := h

theorem ideintr_ok {s s' : State P D} {queue : List (Fin NBUF)} {data : Option D}
    (hq : s.idequeue = b :: queue) (h : s.ideintr data = .ok s') :
    s' = { s.setBuf b (s.served b data) with idequeue := queue } := by
  rw [State.ideintr, hq] at h
  cases queue with
  | nil =>
    cases h
    rfl
  | cons b' queue => exact idestart_ok h

structure Completes (status : UInt8) (data : D) (b : Fin NBUF) (w w' : World P D) : Prop where
  queue : w.cache.idequeue = b :: w'.cache.idequeue
  cache : w.cache.ideintr (if 0 ≤ idewait true status then some data else none) = .ok w'.cache
  buf : w'.cache.buf = update w.cache.buf b
    (w.cache.served b (if 0 ≤ idewait true status then some data else none))
  pc : w'.cache.pc = w.cache.pc
  sent : w'.sent = w'.cache.outgoing
  changed : w'.changed = w.changed
  reading : w'.reading = w.reading
  log : w'.log = .transfer
    ⟨(w.cache.buf b).dev, (w.cache.buf b).blockno, status, w.sent.getD data⟩ :: w.log

theorem Asked.complete (h : Asked w) (hc : Completes status data b w w') : Asked w' := by
  intro q x hq
  rw [hc.reading] at hq
  obtain ⟨b', hb', rfl⟩ := h q x hq
  rw [hc.pc, hc.buf]
  refine ⟨b', hb', ?_⟩
  rcases eq_or_ne b' b with rfl | hne
  · rw [update_self]
    rfl
  · rw [update_of_ne hne]

theorem Faithful.current (h : Faithful w) (hc : Completes status data b w w') :
    Current (w.cache.buf b).dev (w.cache.buf b).blockno (w'.cache.buf b).data w'.log := by
  have hsent := h.sent (by simp [hc.queue])
  rw [State.outgoing, hc.queue, List.head?_cons, Option.bind_some] at hsent
  rw [hc.log]
  refine ⟨_, if_pos ⟨rfl, rfl⟩, fun hok ↦ ?_⟩
  have hok' : 0 ≤ idewait true status := hok
  rw [hc.buf, update_self, if_pos hok', hsent, State.served, Ide.Buf.ideintr]
  cases (w.cache.buf b).dirty with
  | false => rfl
  | true => rfl

theorem Completes.of_complete (h : w.complete status data = .ok w') :
    (w.cache.idequeue = [] ∧ w' = w) ∨ ∃ b, Completes status data b w w' := by
  unfold complete at h
  cases hq : w.cache.idequeue with
  | nil =>
    rw [hq] at h
    cases h
    exact .inl ⟨rfl, rfl⟩
  | cons b queue =>
    rw [hq] at h
    obtain ⟨s, hs, h⟩ := bind_eq_ok.mp h
    cases h
    have he := ideintr_ok hq hs
    exact .inr ⟨b, by rw [hq, he], hs, by rw [he]; rfl, by rw [he]; rfl, rfl, rfl, rfl, rfl⟩

variable [DecidableEq P]

theorem Faithful.returns (h : Faithful w) (ha : Asked w)
    (hp : w.cache.pc p = .bread b ∨ w.cache.pc p = .iderw b)
    (hv : (w.cache.buf b).valid = true) (hd : (w.cache.buf b).dirty = false)
    (hc : w.changed b = false) : Faithful (w.returns p b (w.cache.goto p .idle)) := by
  unfold World.returns
  split
  · rename_i dev blockno hread
    obtain ⟨rfl, rfl⟩ := Prod.mk.inj (ha.block hread (.inr hp))
    refine ⟨fun b' hv' hd' hc' ↦ (h.held b' hv' hd' hc').bread, h.sent, ?_⟩
    intro newer older dev blockno data hlog
    cases newer with
    | nil =>
      cases hlog
      exact h.held b hv hd hc
    | cons e newer =>
      exact h.returned newer older dev blockno data (List.cons.inj hlog).2
  · exact ⟨h.held, h.sent, h.returned⟩

theorem call_cache {havedisk1 : Bool} {a : Act P D} (h : w.call havedisk1 a = .ok w') :
    a.step havedisk1 w.cache = .ok w'.cache := by
  obtain ⟨s, hs, h⟩ := bind_eq_ok.mp h
  have hcache : w'.cache = s := by
    cases a with
    | bget | acquiresleep | modify | bwrite | brelse =>
      cases h
      rfl
    | logWrite | ideintr => cases h
    | bread p =>
      simp only at h
      split at h
      · cases h
        split
        · exact (returns_cache w p _ s).1
        · rfl
      · cases h
    | iderw p =>
      simp only at h
      split at h
      · cases h
        exact (returns_cache w p _ s).1
      · cases h
    | releasesleep p b =>
      simp only at h
      split at h
      · cases h
      · cases h
        rfl
  rw [hs, hcache]

variable [Fintype P]

theorem Move.faithful (hm : Move w w') (hinv : Inv w.cache) (ho : Orderly w) (ha : Asked w)
    (h : Faithful w) : Faithful w' := by
  cases hm with
  | found | acquired | released =>
    exact h.of_same rfl rfl rfl rfl rfl (fun hv ↦ ⟨rfl, hv, rfl, rfl⟩) rfl (fun _ ↦ rfl)
  | recycled p b dev blockno hp hd href =>
    refine h.of_same rfl rfl rfl rfl rfl nofun rfl (fun hb ↦ ?_)
    obtain ⟨q, hq⟩ := ho.queued b hb
    exact absurd href (refcnt_pos_of_pc hinv (.inr (.inr hq))).ne'
  | hit p b hp hv =>
    have hb := ho.not_queued hinv (hinv.owner p b (.inl hp)) (by simp [hp])
    exact h.returns ha (.inl hp) hv (ho.clean hb) (ho.unchanged p b (.inl hp))
  | read p b hp hv =>
    have hb := ho.not_queued hinv (hinv.owner p b (.inl hp)) (by simp [hp])
    exact h.enqueue (v := w.cache.buf b) hb (update_eq_self b w.cache.buf).symm rfl
      (update_eq_self b w.changed).symm (by simp [hv])
  | modified p b data hp hl =>
    have hb := ho.not_queued hinv hl (by simp [hp])
    refine h.of_update rfl rfl rfl (fun hne ↦ ?_) nofun
    rw [h.sent hne]
    symm
    apply outgoing_congr
    · rfl
    · intro b' hb'
      simp [State.setBuf, ne_of_mem_of_not_mem hb' hb]
  | write p b hp hl =>
    exact h.enqueue (ho.not_queued hinv hl (by simp [hp])) rfl rfl rfl (fun _ ↦ rfl)
  | done p b hp hv hd =>
    exact h.returns ha (.inr hp) hv hd (ho.unchanged p b (.inr hp))
  | brelse p b hp =>
    obtain ⟨hbuf, hqueue⟩ := brelse_buf w.cache p b
    exact h.of_same hbuf rfl rfl hqueue rfl (fun hv ↦ ⟨rfl, hv, rfl, rfl⟩) rfl (fun _ ↦ rfl)

theorem Orderly.complete (h : Orderly w) (hinv : Inv w.cache) (hc : Completes status data b w w') :
    Orderly w' := by
  have hnodup := h.nodup
  rw [hc.queue] at hnodup
  obtain ⟨hnot, hnodup⟩ := List.nodup_cons.mp hnodup
  obtain ⟨p, hp⟩ := h.queued b (by simp [hc.queue])
  have hfalse := h.unchanged p b (.inr hp)
  have hdev := h.used b (.inl (refcnt_pos_of_pc hinv (.inr (.inr hp))))
  have hpc : w'.cache.pc = update w.cache.pc p (.iderw b) := by rw [hc.pc, ← hp, update_eq_self]
  refine h.of_update (c := w.changed b) hc.buf hpc (by rw [hc.changed, update_eq_self]) hnodup
    (fun b' _ hb' ↦ ?_) (fun b' hb' hne ↦ ?_) (fun _ ↦ hdev) (fun hb ↦ absurd hb hnot)
    (fun b' _ hp' ↦ hp ▸ hp') (fun hb ↦ absurd hb hnot) nofun (fun _ _ ↦ .inl hp) (fun _ _ ↦ hfalse)
    (fun _ ↦ hfalse)
  · rw [hc.queue]
    exact .tail _ hb'
  · rw [hc.queue] at hb'
    exact (List.mem_cons.mp hb').resolve_left hne

omit [DecidableEq P] in
theorem Faithful.complete (h : Faithful w) (hinv : Inv w.cache) (ho : Orderly w)
    (hc : Completes status data b w w') : Faithful w' where
  held b' := by
    have hcur := h.current hc
    rcases eq_or_ne b' b with rfl | hne
    · rw [hc.buf, update_self] at hcur ⊢
      exact fun _ _ _ ↦ hcur
    · rw [hc.buf, update_of_ne hne, hc.changed, hc.log]
      intro hv hd hch
      obtain ⟨t, ht, hdata⟩ := h.held b' hv hd hch
      refine ⟨t, ?_, hdata⟩
      rw [last, if_neg, ht]
      rintro ⟨hdev, hblockno⟩
      exact hne (hinv.unique b' b (ho.used b' (.inr hv)) hdev.symm hblockno.symm)
  sent _ := hc.sent
  returned newer older dev blockno x hlog := by
    rw [hc.log] at hlog
    cases newer with
    | nil => cases (List.cons.inj hlog).1
    | cons e newer => exact h.returned newer older dev blockno x (List.cons.inj hlog).2

structure Sound (w : World P D) : Prop where
  inv : Inv w.cache
  orderly : Orderly w
  asked : Asked w
  faithful : Faithful w

namespace Sound

omit [DecidableEq P] in
theorem boot (data : D) : Sound (World.boot data : World P D) where
  inv := Inv.boot data
  orderly := ⟨fun b h ↦ by simp [World.boot, State.boot] at h, List.nodup_nil, nofun, nofun, nofun,
    fun _ _ _ ↦ rfl, fun _ _ ↦ rfl⟩
  asked := nofun
  faithful := ⟨nofun, fun h ↦ absurd rfl h, fun newer older dev blockno x h ↦ by
    simp [World.boot] at h⟩

theorem call {havedisk1 : Bool} {a : Act P D} (h : Sound w) (hw : w.call havedisk1 a = .ok w') :
    Sound w' := by
  have hm := Move.of_call h.inv hw
  obtain ⟨hinv, hkeeps⟩ := h.inv.step.of_ok (call_cache hw)
  exact ⟨hinv, hm.orderly h.inv h.orderly,
    hm.asked h.inv h.asked fun b hb ↦ hkeeps.identity b (.inl hb),
    hm.faithful h.inv h.orderly h.asked h.faithful⟩

theorem complete (h : Sound w) (hw : w.complete status data = .ok w') : Sound w' := by
  rcases Completes.of_complete hw with ⟨-, rfl⟩ | ⟨b, hc⟩
  · exact h
  · exact ⟨(h.inv.ideintr _).of_ok hc.cache |>.1, h.orderly.complete h.inv hc, h.asked.complete hc,
      h.faithful.complete h.inv h.orderly hc⟩

theorem step {havedisk1 : Bool} {o : Op P D} (h : Sound w) (hw : World.step havedisk1 o w = .ok w') :
    Sound w' := by
  cases o with
  | call a => exact h.call hw
  | complete status data => exact h.complete hw

end Sound

omit [DecidableEq P] [Fintype P] in
theorem Current.transferred {dev blockno : ℕ} {l : List (Event D)} (h : Current dev blockno data l)
    (hok : ∀ t, last dev blockno l = some t → t.Successful) : transferred dev blockno l = some data := by
  obtain ⟨t, ht, hdata⟩ := h
  have hs := hok t ht
  rw [← hdata hs]
  clear hdata hok
  induction l with
  | nil => cases ht
  | cons e l ih =>
    cases e with
    | bread => exact ih ht
    | transfer t' =>
      by_cases hb : t'.dev = dev ∧ t'.blockno = blockno
      · rw [last, if_pos hb] at ht
        obtain rfl := Option.some.inj ht
        rw [Bio.transferred, if_pos ⟨hb, hs⟩]
      · rw [last, if_neg hb] at ht
        rw [Bio.transferred, if_neg fun h ↦ hb h.1]
        exact ih ht

/-- An error in the status is not lost: a buffer that was to be read is not valid, and one that was
to be written is not clean. -/
def Reports (status : UInt8) (b : Fin NBUF) (w w' : World P D) : Prop :=
  idewait true status < 0 → if (w.cache.buf b).dirty then (w'.cache.buf b).dirty = true
    else (w'.cache.buf b).valid = false

omit [DecidableEq P] [Fintype P] in
theorem Completes.reports_iff (h : Completes status data b w w') :
    Reports status b w w' ↔ 0 ≤ idewait true status := by
  have hserved : (w'.cache.buf b).dirty = false ∧ (w'.cache.buf b).valid = true := by
    rw [h.buf, update_self]
    exact ⟨rfl, rfl⟩
  rw [Reports, hserved.1, hserved.2, ← not_lt]
  simp

end World

open World in
/-- `bread` returns the last contents transferred if the last command for the block was successful,
and an error is reported exactly if there is none. -/
theorem bread_returns_last_transfer {P D : Type} [Fintype P] [DecidableEq P] {havedisk1 : Bool}
    {data : D} {l : List (Op P D)} {w : World P D}
    (he : exec (World.step havedisk1) l (World.boot data) = .ok w) :
    (∀ newer older dev blockno x, w.log = newer ++ .bread dev blockno x :: older →
      (∀ t, last dev blockno older = some t → t.Successful) →
      transferred dev blockno older = some x) ∧
    ∀ b status x w', w.cache.idequeue.head? = some b → w.complete status x = .ok w' →
      (Reports status b w w' ↔ 0 ≤ idewait true status) := by
  have h : Sound w := exec_invariant (fun o w w' hw hstep ↦ hw.step hstep) (Sound.boot data) he
  refine ⟨fun newer older dev blockno x hlog hok ↦ ?_, fun b status x w' hhead hw ↦ ?_⟩
  · exact (h.faithful.returned newer older dev blockno x hlog).transferred hok
  · rcases Completes.of_complete hw with ⟨hnil, -⟩ | ⟨b', hc⟩
    · rw [hnil] at hhead
      cases hhead
    · rw [hc.queue] at hhead
      cases hhead
      exact hc.reports_iff

def firstBuf : Fin NBUF := ⟨0, Nat.zero_lt_succ 29⟩

def readBlock (status : UInt8) : List (Op Unit ℕ) :=
  [.call (.bget () 1 7), .call (.acquiresleep ()), .call (.bread ()), .complete status 9,
    .call (.iderw ())]

def writeBlock (status : UInt8) : List (Op Unit ℕ) :=
  [.call (.modify () firstBuf 3), .call (.bwrite () firstBuf), .complete status 0, .call (.iderw ())]

theorem readBlock_ensures : Ensures (fun w : World Unit ℕ ↦
      w.log = [.bread 1 7 9, .transfer ⟨1, 7, 0x40, 9⟩]) (fun _ ↦ False)
    (exec (World.step true) (readBlock 0x40) (World.boot 0)) := by
  decide +kernel

theorem bread_returns_last_transfer_nine : ∃ w : World Unit ℕ,
    exec (World.step true) (readBlock 0x40) (World.boot 0) = .ok w ∧
    w.log = [.bread 1 7 9, .transfer ⟨1, 7, 0x40, 9⟩] ∧
    transferred 1 7 [Event.transfer ⟨1, 7, 0x40, 9⟩] = some 9 := by
  obtain ⟨w, he, hlog⟩ := readBlock_ensures.exists_ok
  have hok : ∀ t, last 1 7 [Event.transfer ⟨1, 7, 0x40, 9⟩] = some t → t.Successful := by
    intro t ht
    cases ht
    decide
  exact ⟨w, he, hlog, (bread_returns_last_transfer he).1 [] _ 1 7 9 hlog hok⟩

/-- After a read that has failed `bread` returns what was in the buffer, which is valid. After a
write that has failed the buffer is clean, with data that are not on the disk. -/
theorem disk_errors_lost : Ensures (fun w : World Unit ℕ ↦
      (w.cache.buf firstBuf).valid = true ∧ w.log = [.bread 1 7 0, .transfer ⟨1, 7, 0x41, 9⟩] ∧
      transferred 1 7 w.log = none ∧
      Ensures (fun w ↦ (w.cache.buf firstBuf).dirty = false ∧ (w.cache.buf firstBuf).data = 3 ∧
        transferred 1 7 w.log = none) (fun _ ↦ False)
        (exec (World.step true) (writeBlock 0x41) w)) (fun _ ↦ False)
    (exec (World.step true) (readBlock 0x41) (World.boot 0)) := by
  decide +kernel

end Xv6Bfs.Bio
