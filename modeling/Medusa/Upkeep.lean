import Medusa.Retention

/-! # The upkeep of a cluster keeps the contract

Every program of the maintenance loop keeps the contract of a watched entry (`Watch.contract`):

* `gossip_obeys`, `join_obeys`, `detectFailures_obeys`: views stay within the members;
* `migrate_obeys`: a pass drops the entry only where it may, and a complete pass of a steady run
  has pushed it to all holders;
* `antiEntropy_obeys`: an owner prunes a holder only with a key set that has the entry;
* `leave_obeys`, `restart_obeys`: a node that need not stay may leave or start afresh;
* `job_obeys`: **every call of the maintenance loop keeps the contract**. -/

namespace Medusa

open Medusa.Partition Store Interleave Service Contract

namespace Watch

variable {W : Watch} {sync : ℕ → Prop} {i now : ℕ} {n : Bytes} {keys : List Bytes} {tbl : Table} {me : Member}
  {h : List Event}

/-! ### Messages -/

/-- A message reaches a member at its address; in a steady run it arrives, and so does the answer. -/
theorem send_obeys {α : Type} {addr : Bytes} {handle : Bytes → Prog (Except ServiceError α)}
    {Q : Except ServiceError α → List Event → Prop} (hnone : (W.steady → ∀ x ∈ W.ids, addr ≠ W.addr x) →
      Q (.error .unreachable) (⟨i, .connect addr, none⟩ :: h))
    (hsome : ∀ x ∈ W.ids, addr = W.addr x → (W.contract sync).Obeys i
      (fun out h' => ∀ arrived, (W.steady → arrived = true) →
        Q (if arrived then out else .error .unreachable) (⟨i, .reply x, arrived⟩ :: h'))
      (handle x) (⟨i, .connect addr, some x⟩ :: h)) :
    (W.contract sync).Obeys i Q (send addr handle) h := by
  refine Obeys.step trivial (fun r hr => ?_)
  cases r with
  | none =>
    refine hnone (fun hs x hx ha => ?_)
    exact absurd (hr.2 hs x hx ha) (by simp)
  | some x =>
    obtain ⟨hx, ha⟩ := hr.1 x rfl
    refine Obeys.bind ((hsome x hx ha).mono (fun out h' hq => ?_))
    exact Obeys.step trivial (fun arrived harr => hq arrived harr)

/-- A message whose outcome does not matter. -/
theorem send_obeys_any {α : Type} {addr : Bytes} {handle : Bytes → Prog (Except ServiceError α)}
    (hsome : ∀ x ∈ W.ids, addr = W.addr x → ∀ h',
      (W.contract sync).Obeys i (fun _ _ => True) (handle x) h') :
    (W.contract sync).Obeys i (fun _ _ => True) (send addr handle) h :=
  send_obeys (fun _ => trivial)
    (fun x hx ha => (hsome x hx ha _).mono (fun _ _ _ _ _ => trivial))

/-- A push of the entry arrives, in a steady run. -/
theorem sendPut_obeys {addr name key value : Bytes} (ttlMs : Int64)
    (hv : (name, key) = W.ref → value = W.data) (h : List Event) :
    (W.contract sync).Obeys i
      (fun _ h' => W.steady → (name, key) = W.ref → ∀ x ∈ W.ids, addr = W.addr x → W.PutIn h' x)
      (sendPut addr name key value ttlMs true) h := by
  refine send_obeys (fun hno hs _ x hx ha => absurd ha (hno hs x hx)) (fun y hy hay => ?_)
  refine Obeys.step hy (fun now _ => ?_)
  refine Obeys.step ⟨hy, hv⟩ (fun created _ arrived _ _ hr x hx hax => ?_)
  obtain rfl := W.addr_inj x hx y hy (hax.symm.trans hay)
  refine ⟨i, expireFromTTL now ttlMs, created, List.mem_cons_of_mem _ ?_⟩
  rw [← hr, ← hv hr]
  exact List.mem_cons_self

/-! ### Membership -/

theorem gossipTo_obeys {payload : List Member} (hp : ∀ mem ∈ payload, W.Known mem) (peers : List Member)
    (h : List Event) :
    (W.contract sync).Obeys i (fun _ _ => True) (Membership.gossipTo n payload peers) h := by
  induction peers generalizing h with
  | nil => trivial
  | cons peer peers ih =>
    unfold Membership.gossipTo
    split
    · exact ih h
    · refine Obeys.bind ((send_obeys_any ?_).mono (fun _ h' _ => ih h'))
      exact fun x hx _ h' => Obeys.step ⟨hx, hp⟩ (fun _ _ => trivial)

theorem gossip_obeys (hn : n ∈ W.ids) (h : List Event) :
    (W.contract sync).Obeys i (fun _ _ => True) (Membership.gossip n) h := by
  refine Obeys.step hn (fun payload hp => ?_)
  exact Obeys.step hn (fun peers _ => gossipTo_obeys hp peers _)

/-- A seed answers with known members. -/
theorem sendJoin_obeys (hme : W.Known me) (seed : Bytes) (h : List Event) :
    (W.contract sync).Obeys i (fun res _ => ∀ ms, res = .ok ms → ∀ mem ∈ ms, W.Known mem)
      (Membership.sendJoin me seed) h := by
  refine send_obeys (fun _ ms hms => by simp at hms) (fun x hx _ => ?_)
  refine Obeys.step ⟨hx, hme⟩ (fun _ _ => ?_)
  refine Obeys.step hx (fun view hview arrived _ ms hms => ?_)
  cases arrived with
  | false => simp at hms
  | true =>
    obtain rfl := Except.ok.inj hms
    exact hview

theorem joinSeeds_obeys (hme : W.Known me) (seeds : List Bytes) (reached : Bool) (h : List Event) :
    (W.contract sync).Obeys i (fun _ _ => True) (Membership.joinSeeds me seeds reached) h := by
  induction seeds generalizing reached h with
  | nil => trivial
  | cons seed seeds ih =>
    unfold Membership.joinSeeds
    split
    · exact ih reached h
    · refine Obeys.bind ((sendJoin_obeys hme seed h).mono ?_)
      rintro (err | ms) h' hms
      · exact ih reached h'
      · exact Obeys.step ⟨hme.1, hms ms rfl⟩ (fun _ _ => ih true _)

theorem join_obeys (hme : W.Known me) (seeds : List Bytes) (h : List Event) :
    (W.contract sync).Obeys i (fun _ _ => True) (Membership.join me seeds) h := by
  refine Obeys.bind ((joinSeeds_obeys hme seeds false h).mono (fun reached h' _ => ?_))
  cases reached with
  | false => trivial
  | true => exact gossip_obeys hme.1 h'

theorem detectPeers_obeys (hn : n ∈ W.ids) (hs : ¬ W.steady) (threshold : UInt8) (peers : List Member)
    (h : List Event) :
    (W.contract sync).Obeys i (fun _ _ => True) (Membership.detectPeers n threshold peers) h := by
  induction peers generalizing h with
  | nil => trivial
  | cons peer peers ih =>
    unfold Membership.detectPeers
    split
    · exact ih h
    · refine Obeys.bind ((send_obeys_any (fun _ _ _ _ => ?_)).mono ?_)
      · trivial
      · exact fun _ h' _ => Obeys.step ⟨hn, hs⟩ (fun _ _ => ih _)

theorem detectFailures_obeys (hn : n ∈ W.ids) (hs : ¬ W.steady) (threshold : UInt8) (h : List Event) :
    (W.contract sync).Obeys i (fun _ _ => True) (Membership.detectFailures n threshold) h :=
  Obeys.step hn (fun peers _ => detectPeers_obeys hn hs _ peers _)

theorem announceTo_obeys (n : Bytes) (hs : ¬ W.steady) (peers : List Member) (h : List Event) :
    (W.contract sync).Obeys i (fun _ _ => True) (Membership.announceTo n peers) h := by
  induction peers generalizing h with
  | nil => trivial
  | cons peer peers ih =>
    unfold Membership.announceTo
    split
    · exact ih h
    · refine Obeys.bind ((send_obeys_any ?_).mono (fun _ h' _ => ih h'))
      exact fun x hx _ h' => Obeys.step ⟨hx, hs⟩ (fun _ _ => trivial)

theorem announceLeave_obeys (hn : n ∈ W.ids) (hs : ¬ W.steady) (h : List Event) :
    (W.contract sync).Obeys i (fun _ _ => True) (Membership.announceLeave n) h :=
  Obeys.step hn (fun peers _ => announceTo_obeys n hs peers _)

/-! ### Migration -/

theorem pushEntries_obeys {addr : Bytes} {es : List Entry}
    (hv : ∀ d ∈ es, d.ref = W.ref → d.value = W.data)
    (hlive : W.steady → ∀ d ∈ es, d.ref = W.ref → lapses d.expireAt now = false) (pushedOK : Bool)
    (h : List Event) :
    (W.contract sync).Obeys i
      (fun _ h' => W.steady → W.ref ∈ es.map Entry.ref → ∀ x ∈ W.ids, addr = W.addr x →
        W.PutIn h' x)
      (pushEntries addr now es pushedOK) h := by
  induction es generalizing pushedOK h with
  | nil => exact fun _ hr => by simp at hr
  | cons d es ih =>
    have hih := ih (fun e he => hv e (List.mem_cons_of_mem _ he))
      (fun hs e he => hlive hs e (List.mem_cons_of_mem _ he))
    unfold pushEntries
    split
    · next hl =>
      refine (hih pushedOK h).mono (fun _ h' hq hs hr x hx ha => hq hs ?_ x hx ha)
      rcases List.mem_cons.mp hr with hr | hr
      · rw [hlive hs d List.mem_cons_self hr.symm] at hl
        cases hl
      · exact hr
    · refine Obeys.bind ((sendPut_obeys _ (hv d List.mem_cons_self) h).mono ?_)
      -- the rest is pushed whatever became of this one
      have hrest : ∀ ok h₁, (W.steady → d.ref = W.ref → ∀ x ∈ W.ids, addr = W.addr x →
          W.PutIn h₁ x) → (W.contract sync).Obeys i
          (fun _ h' => W.steady → W.ref ∈ (d :: es).map Entry.ref → ∀ x ∈ W.ids,
            addr = W.addr x → W.PutIn h' x) (pushEntries addr now es ok) h₁ := by
        intro ok h₁ hd
        refine (hih ok h₁).suffix.mono ?_
        rintro _ h' ⟨hq, hsuf⟩ hs hr x hx ha
        rcases List.mem_cons.mp hr with hr | hr
        · exact (hd hs hr.symm x hx ha).mono hsuf.subset
        · exact hq hs hr x hx ha
      rintro (err | b) h₁ hd
      · exact hrest false h₁ hd
      · exact hrest pushedOK h₁ hd

theorem pushTargets_obeys (hn : n ∈ W.ids) {snap es : List Entry} (hsub : es ⊆ snap)
    (hv : ∀ d ∈ es, d.ref = W.ref → d.value = W.data) (ids : List Bytes) (pushedOK : Bool)
    (hsnap : W.ref ∈ es.map Entry.ref → W.SnapIn h n snap) :
    (W.contract sync).Obeys i
      (fun _ h' => W.steady → W.ref ∈ es.map Entry.ref → ∀ x ∈ ids, x ∈ W.ids → W.PutIn h' x)
      (pushTargets n es ids pushedOK) h := by
  induction ids generalizing pushedOK h with
  | nil => exact fun _ _ x hx => by simp at hx
  | cons id ids ih =>
    unfold pushTargets
    refine Obeys.step hn (fun r hr => ?_)
    cases r with
    | none =>
      refine (ih false (fun hmem => (hsnap hmem).mono (List.subset_cons_self _ _))).mono ?_
      intro _ h' hq hs hmem x hx hid
      rcases List.mem_cons.mp hx with rfl | hx
      · exact absurd rfl (hr.2 hs hid)
      · exact hq hs hmem x hx hid
    | some addr =>
      refine Obeys.step hn (fun now hnow => ?_)
      have hlive : W.steady → ∀ d ∈ es, d.ref = W.ref → lapses d.expireAt now = false := by
        intro hs d hd hdr
        have hmem := List.mem_map.mpr ⟨d, hd, hdr⟩
        exact hnow hs snap ((hsnap hmem).mono (List.subset_cons_self _ _)) d (hsub hd) hdr
      refine Obeys.bind ((pushEntries_obeys hv hlive pushedOK _).suffix.mono ?_)
      rintro ok h₁ ⟨hput, hsuf⟩
      have hsnap₁ : W.ref ∈ es.map Entry.ref → W.SnapIn h₁ n snap := fun hmem =>
        (hsnap hmem).mono (List.Subset.trans (List.subset_cons_of_subset _
          (List.subset_cons_self _ _)) hsuf.subset)
      refine (ih ok hsnap₁).suffix.mono (fun _ h' ⟨hq, hsuf'⟩ hs hmem x hx hid => ?_)
      rcases List.mem_cons.mp hx with rfl | hx
      · exact (hput hs hmem x hid (hr.1 addr rfl).2).mono hsuf'.subset
      · exact hq hs hmem x hx hid

/-- What a round of `Migrate` did about the entry: its holders have what the snapshot had. -/
def Pushed (W : Watch) (n : Bytes) (targets : List Bytes) (h : List Event) : Prop :=
  ∃ snap, W.SnapIn h n snap ∧
    (W.ref ∈ snap.map Entry.ref → ∀ x ∈ targets, x ∈ W.ids → W.PutIn h x)

theorem Pushed.mono {targets : List Bytes} {h h' : List Event} (hp : W.Pushed n targets h)
    (hs : h ⊆ h') : W.Pushed n targets h' := by
  obtain ⟨snap, hsnap, hput⟩ := hp
  exact ⟨snap, hsnap.mono hs, fun hr x hx hid => (hput hr x hx hid).mono hs⟩

/-- A node gives the entry up with this table only where it may. -/
def MayDrop (W : Watch) (n : Bytes) (tbl : Table) : Prop :=
  selfHolds n tbl W.part = false →
    ¬ W.stay n ∧ (W.moves n → ∀ x, W.stay x → x ∈ targets n tbl W.part)

theorem migratePartition_obeys (hn : n ∈ W.ids) (hdrop : W.MayDrop n tbl) (p : PartitionId)
    (h : List Event) :
    (W.contract sync).Obeys i
      (fun _ h' => W.steady → p = W.part → W.Pushed n (targets n tbl W.part) h')
      (migratePartition n tbl p) h := by
  refine Obeys.step hn (fun snap hpost => ?_)
  have hes : ∀ d, d ∈ orderQueueMetaLast snap ↔ d ∈ snap := fun d => mem_orderQueueMetaLast
  have hrefs : W.ref ∈ (orderQueueMetaLast snap).map Entry.ref ↔ W.ref ∈ snap.map Entry.ref := by
    simp only [List.mem_map, hes]
  have hsnap : p = W.part → W.SnapIn (⟨i, .on n (.snapshot p), snap⟩ :: h) n snap := by
    rintro rfl
    exact ⟨i, List.mem_cons_self⟩
  have hpart : W.ref ∈ snap.map Entry.ref → p = W.part := by
    intro hr
    obtain ⟨d, hd, hdr⟩ := List.mem_map.mp hr
    exact (hpost.1 d hd hdr).1
  unfold handOver
  split
  · next hnil =>
    refine fun _ hp => ⟨snap, hsnap hp, fun hr => ?_⟩
    rw [← hrefs, hnil] at hr
    simp at hr
  · refine Obeys.bind ((pushTargets_obeys hn (fun d hd => (hes d).mp hd)
      (fun d hd hdr => (hpost.1 d ((hes d).mp hd) hdr).2) _ true
      (fun hr => hsnap (hpart (hrefs.mp hr)))).suffix.mono ?_)
    rintro ok h₁ ⟨hput, hsuf⟩
    have hpushed : W.steady → p = W.part → W.Pushed n (targets n tbl W.part) h₁ := by
      rintro hs rfl
      exact ⟨snap, (hsnap rfl).mono hsuf.subset, fun hr => hput hs (hrefs.mpr hr)⟩
    split
    · next hcond =>
      rw [Bool.and_eq_true, Bool.not_eq_true'] at hcond
      refine Obeys.step ⟨hn, ?_⟩ (fun _ _ hs hp => ?_)
      · rintro rfl
        obtain ⟨hstay, htargets⟩ := hdrop hcond.1
        refine ⟨hstay, fun hg hr x hx => ?_⟩
        exact hput (W.moves_steady n hg) hr x (htargets hg x hx) (stay_mem hx)
      · exact (hpushed hs hp).mono (List.subset_cons_self _ _)
    · exact hpushed

theorem migrateLoop_obeys (hn : n ∈ W.ids) (hdrop : W.MayDrop n tbl) (ps : List PartitionId)
    (h : List Event) :
    (W.contract sync).Obeys i
      (fun _ h' => W.steady → W.part ∈ ps → W.Pushed n (targets n tbl W.part) h')
      (migrateLoop n tbl ps) h := by
  induction ps generalizing h with
  | nil => exact fun _ hp => by simp at hp
  | cons p ps ih =>
    refine Obeys.step trivial (fun stop hstop => ?_)
    cases stop with
    | true => exact fun hs => absurd (hstop hs) (by simp)
    | false =>
      refine Obeys.bind ((migratePartition_obeys hn hdrop p _).mono ?_)
      intro _ h₁ hpushed
      refine (ih h₁).suffix.mono (fun _ h' ⟨hq, hsuf⟩ hs hp => ?_)
      rcases List.mem_cons.mp hp with rfl | hp
      · exact (hpushed hs rfl).mono hsuf.subset
      · exact hq hs hp

theorem migrate_obeys (hn : n ∈ W.ids) (hdrop : W.MayDrop n tbl) (h : List Event) :
    (W.contract sync).Obeys i
      (fun _ h' => W.steady → W.Pushed n (targets n tbl W.part) h') (migrate n tbl) h :=
  (migrateLoop_obeys hn hdrop _ h).mono (fun _ _ hq hs => hq hs (List.mem_finRange _))

/-! ### Tables of parts of the members -/

theorem Sees.holders_eq (hk : W.Sees n tbl keys)
    (p : PartitionId) : holders keys W.backups p = tbl.ownerOf p :: tbl.backupsOf p := by
  rw [hk.eq, holders_eq_cons (List.ne_nil_of_mem hk.self_mem)]

/-- A holder is a holder in every view that has it. -/
theorem Sees.mem_holders (hk : W.Sees n tbl keys) {x : Bytes} (hx : x ∈ keys)
    (hh : x ∈ holders W.ids W.backups W.part) :
    x = tbl.ownerOf W.part ∨ x ∈ tbl.backupsOf W.part := by
  have h := mem_holders_of_subset W.nodup hk.nodup hk.subset hx hh
  rw [hk.holders_eq] at h
  exact List.mem_cons.mp h

/-- With a table of its view, a node gives the entry up only where it may. -/
theorem Sees.mayDrop (hk : W.Sees n tbl keys) :
    W.MayDrop n tbl := by
  intro hself
  simp only [selfHolds, Bool.or_eq_false_iff, decide_eq_false_iff_not] at hself
  constructor
  · intro hstay
    rcases hk.mem_holders hk.self_mem (W.stay_holder n hstay) with h | h
    · exact hself.1 h.symm
    · exact hself.2 h
  · intro hg x hx
    have hxn : x ≠ n := by
      rintro rfl
      exact W.moves_not_holder x hg (W.stay_holder x hx)
    rcases hk.mem_holders (hk.full (W.moves_steady n hg) (stay_mem hx)) (W.stay_holder x hx) with h | h
    · have hne : x ≠ [] := fun h0 => W.named (h0 ▸ stay_mem hx)
      refine List.mem_append_left _ ?_
      rw [if_pos ⟨h ▸ hne, h ▸ hxn⟩]
      exact List.mem_singleton.mpr h
    · exact List.mem_append_right _ (List.mem_filter.mpr ⟨h, by simpa using hxn⟩)

/-- The owner of a view that has a holder among its backups is a holder, and never backs up to a
node that moves. -/
theorem Sees.owner_holder {n x : Bytes} (hk : W.Sees n tbl keys) (hx : x ∈ tbl.backupsOf W.part)
    (hw : W.stay x ∨ W.moves x) :
    tbl.ownerOf W.part ∈ holders W.ids W.backups W.part := by
  have hmem : x ∈ holders keys W.backups W.part := by
    rw [hk.holders_eq]
    exact List.mem_cons_of_mem _ hx
  rcases hw with hs | hg
  · rw [hk.eq]
    exact ownerOf_mem_holders hk.subset (mem_of_mem_holders hmem) (W.stay_holder x hs)
  · have hfull := hk.full (W.moves_steady x hg)
    exact absurd (mem_holders_of_subset hk.nodup W.nodup hfull (W.moves_mem x hg) hmem)
      (W.moves_not_holder x hg)

/-- In a steady run a pass of the maintenance loop reaches all holders. -/
def Migrated (W : Watch) (n : Bytes) (h : List Event) : Prop :=
  ∃ tbl keys, W.Sees n tbl keys ∧ W.Pushed n (targets n tbl W.part) h

theorem rebalance_obeys (hn : n ∈ W.ids) (h : List Event) :
    (W.contract sync).Obeys i (fun _ h' => W.steady → W.Migrated n h') (Node.rebalance n) h := by
  refine Obeys.step hn (fun tbl ⟨keys, hk⟩ => ?_)
  exact (migrate_obeys hn hk.mayDrop _).mono (fun _ _ hq hs => ⟨tbl, keys, hk, hq hs⟩)

/-- A node that need not stay may leave. -/
theorem leave_obeys (hn : n ∈ W.ids) (hstay : ¬ W.stay n) (hs : ¬ W.steady) (h : List Event) :
    (W.contract sync).Obeys i (fun _ _ => True) (Node.leave n) h := by
  refine Obeys.step hn (fun tbl _ => ?_)
  have hdrop : W.MayDrop n tbl := fun _ => ⟨hstay, fun hg => absurd (W.moves_steady n hg) hs⟩
  refine Obeys.bind ((migrate_obeys hn hdrop _).mono (fun _ h₁ _ => ?_))
  refine Obeys.bind ((announceLeave_obeys hn hs h₁).mono (fun _ h₂ _ => ?_))
  exact ⟨⟨hn, hs⟩, fun _ _ => trivial⟩

/-- A node that need not stay may crash and start afresh. -/
theorem restart_obeys (hme : W.Known me) (hstay : ¬ W.stay me.id) (hs : ¬ W.steady) (seeds : List Bytes)
    (h : List Event) :
    (W.contract sync).Obeys i (fun _ _ => True) (Node.restart me seeds) h := by
  refine Obeys.step ⟨hme.1, hstay, hs⟩ (fun _ _ => ?_)
  exact Obeys.step ⟨hme.1, hstay, hs⟩ (fun _ _ => join_obeys hme seeds _)

/-! ### Anti-entropy -/

/-- The address of one of the given members. -/
def AddrOf (W : Watch) (bs : List Bytes) (a : Bytes) : Prop := ∃ b ∈ bs, b ∈ W.ids ∧ a = W.addr b

theorem probe_obeys (hn : n ∈ W.ids) (p : PartitionId) (digest : UInt64) (bs : List Bytes)
    (h : List Event) :
    (W.contract sync).Obeys i (fun stale _ => ∀ a ∈ stale, W.AddrOf bs a) (probe n p digest bs) h := by
  induction bs generalizing h with
  | nil => exact fun a ha => by simp at ha
  | cons b bs ih =>
    have hcons : ∀ a, W.AddrOf bs a → W.AddrOf (b :: bs) a := fun a ⟨x, hx, hid, ha⟩ =>
      ⟨x, List.mem_cons_of_mem _ hx, hid, ha⟩
    unfold probe
    split
    · exact (ih h).mono (fun stale _ hst a ha => hcons a (hst a ha))
    · refine Obeys.step hn (fun r hr => ?_)
      cases r with
      | none => exact (ih _).mono (fun stale _ hst a ha => hcons a (hst a ha))
      | some addr =>
        have hd : (W.contract sync).Obeys i (fun _ _ => True) (sendDigest addr p digest)
            (⟨i, .on n (.addrOf b), some addr⟩ :: h) :=
          send_obeys_any (fun x hx _ h' => Obeys.step hx (fun _ _ => trivial))
        refine Obeys.bind (hd.mono (fun res h₁ _ => ?_))
        refine Obeys.bind ((ih h₁).mono (fun stale _ hst a ha => ?_))
        split at ha
        · exact hcons a (hst a ha)
        · rcases List.mem_cons.mp ha with rfl | ha
          · exact ⟨b, List.mem_cons_self, hr.1 a rfl⟩
          · exact hcons a (hst a ha)

theorem pushStale_obeys {name key value : Bytes} (ttlMs : Int64)
    (hv : (name, key) = W.ref → value = W.data) (addrs : List Bytes) (sent : Bool) (h : List Event) :
    (W.contract sync).Obeys i (fun _ _ => True) (pushStale name key value ttlMs addrs sent) h := by
  induction addrs generalizing sent h with
  | nil => trivial
  | cons addr addrs ih =>
    refine Obeys.bind ((sendPut_obeys ttlMs hv h).mono ?_)
    rintro (err | b) h₁ _
    · exact ih sent h₁
    · exact ih true h₁

/-- A holder's key set has the entry when its snapshot has it. -/
theorem syncEntries_obeys {n : Bytes} (hn : n ∈ W.ids) (hsync : sync i) {p : PartitionId} {now : ℕ}
    (stale : List Bytes) {es : List Entry} (hpart : ∀ d ∈ es, d.ref = W.ref → p = W.part)
    (keyset : List Ref) (pushed : ℕ) {h : List Event} (hnow : ReadClock h n now) :
    (W.contract sync).Obeys i
      (fun r _ => n ∈ holders W.ids W.backups W.part →
        W.ref ∈ es.map Entry.ref ∨ W.ref ∈ keyset → W.ref ∈ r.1)
      (syncEntries n p now stale es keyset pushed) h := by
  induction es generalizing keyset pushed h with
  | nil => exact fun _ hr => hr.resolve_left (by simp)
  | cons d es ih =>
    have hih := @ih (fun e he => hpart e (List.mem_cons_of_mem _ he))
    unfold syncEntries
    refine Obeys.step hn (fun r hr => ?_)
    have hnow₁ := hnow.mono (List.subset_cons_self ⟨i, .on n (.lookup p d.mapName d.key), r⟩ h)
    have hd : d.ref = W.ref → (∀ v, r = some v → v.data = W.data) ∧
        (n ∈ holders W.ids W.backups W.part → ∃ v, r = some v ∧ lapses v.expireAt now = false) := by
      intro hdr
      obtain ⟨h1, h2⟩ := hr hdr (hpart d List.mem_cons_self hdr)
      refine ⟨h1, fun hh => ?_⟩
      obtain ⟨v, hv, hl⟩ := h2 hsync hh
      exact ⟨v, hv, hl now hnow⟩
    -- an entry left out of the key set is not the watched one
    have hskip : (n ∈ holders W.ids W.backups W.part → d.ref ≠ W.ref) →
        n ∈ holders W.ids W.backups W.part →
        W.ref ∈ (d :: es).map Entry.ref ∨ W.ref ∈ keyset →
        W.ref ∈ es.map Entry.ref ∨ W.ref ∈ keyset := by
      intro hne hh hmem
      refine hmem.imp_left (fun hmem => ?_)
      exact (List.mem_cons.mp hmem).resolve_left (fun h0 => hne hh h0.symm)
    cases r with
    | none =>
      refine (hih keyset pushed hnow₁).mono (fun _ _ hq hh hmem => hq hh (hskip ?_ hh hmem))
      intro hh hdr
      obtain ⟨v, hv, -⟩ := (hd hdr).2 hh
      cases hv
    | some v =>
      dsimp only
      split
      · next hl =>
        refine (hih keyset pushed hnow₁).mono (fun _ _ hq hh hmem => hq hh (hskip ?_ hh hmem))
        intro hh hdr
        obtain ⟨v', hv, hl'⟩ := (hd hdr).2 hh
        obtain rfl := Option.some.inj hv
        rw [hl'] at hl
        cases hl
      · refine Obeys.bind ((pushStale_obeys _ (fun hdr => (hd hdr).1 v rfl) stale false
          _).suffix.mono ?_)
        rintro sent h₁ ⟨-, hsuf⟩
        refine (hih (keyset ++ [d.ref]) _ (hnow₁.mono hsuf.subset)).mono ?_
        intro _ _ hq hh hmem
        refine hq hh ?_
        rw [List.mem_append, List.mem_singleton]
        rcases hmem with hmem | hmem
        · rcases List.mem_cons.mp hmem with hdr | hmem
          · exact Or.inr (Or.inr hdr)
          · exact Or.inl hmem
        · exact Or.inr (Or.inl hmem)

/-- Key sets that have the entry go to holders. -/
theorem reconcileAll_obeys {p : PartitionId} {keyset : List Ref} {bs : List Bytes}
    (hkeep : p = W.part → ∀ x ∈ bs, W.stay x ∨ W.moves x → W.ref ∈ keyset) {stale : List Bytes}
    (hst : ∀ a ∈ stale, W.AddrOf bs a) (h : List Event) :
    (W.contract sync).Obeys i (fun _ _ => True) (reconcileAll p keyset stale) h := by
  induction stale generalizing h with
  | nil => trivial
  | cons addr stale ih =>
    refine Obeys.bind ((send_obeys_any (fun x hx ha h' => ?_)).mono
      (fun _ h₁ _ => ih (fun a ha => hst a (List.mem_cons_of_mem _ ha)) h₁))
    obtain ⟨b, hb, hid, hab⟩ := hst addr List.mem_cons_self
    obtain rfl := W.addr_inj x hx b hid (ha.symm.trans hab)
    refine Obeys.step hx (fun tbl _ => ?_)
    split
    · trivial
    · exact Obeys.step ⟨hx, fun hp hw => hkeep hp x hb hw⟩ (fun _ _ => trivial)

theorem syncPartition_obeys (hn : n ∈ W.ids) (hsync : sync i) (hk : W.Sees n tbl keys) (p : PartitionId)
    (hnow : ReadClock h n now) :
    (W.contract sync).Obeys i (fun _ _ => True) (syncPartition n tbl now p) h := by
  unfold syncPartition
  split
  · trivial
  · next hown =>
    rw [not_not] at hown
    refine Obeys.step hn (fun digest _ => ?_)
    refine Obeys.bind ((probe_obeys hn p digest _ _).suffix.mono ?_)
    rintro stale h₁ ⟨hst, hsuf⟩
    split
    · trivial
    · refine Obeys.step hn (fun snap hsnap => ?_)
      have hnow₁ : ReadClock (⟨i, .on n (.snapshot p), snap⟩ :: h₁) n now :=
        hnow.mono (List.subset_cons_of_subset _
          (List.Subset.trans (List.subset_cons_self _ _) hsuf.subset))
      refine Obeys.bind ((syncEntries_obeys hn hsync stale
        (fun d hd hdr => (hsnap.1 d (mem_orderQueueMetaLast.mp hd) hdr).1) [] 0 hnow₁).mono ?_)
      intro r h₂ hr
      refine Obeys.bind ((reconcileAll_obeys ?_ hst h₂).mono (fun _ _ _ => trivial))
      rintro rfl x hx hw
      have hh : n ∈ holders W.ids W.backups W.part := hown ▸ hk.owner_holder hx hw
      refine hr hh (Or.inl ?_)
      obtain ⟨d, hd, hdr⟩ := List.mem_map.mp (hsnap.2 hsync rfl hh)
      exact List.mem_map.mpr ⟨d, mem_orderQueueMetaLast.mpr hd, hdr⟩

theorem syncLoop_obeys (hn : n ∈ W.ids) (hsync : sync i) (hk : W.Sees n tbl keys) (k : ℕ)
    (p : PartitionId) (pushed : ℕ) (hnow : ReadClock h n now) :
    (W.contract sync).Obeys i (fun _ _ => True) (syncLoop n tbl now k p pushed) h := by
  induction k generalizing p pushed h with
  | zero => trivial
  | succ k ih =>
    refine Obeys.bind ((syncPartition_obeys hn hsync hk p hnow).suffix.mono ?_)
    exact fun d h₁ ⟨_, hsuf⟩ => ih _ _ (hnow.mono hsuf.subset)

theorem antiEntropy_obeys (hn : n ∈ W.ids) (hsync : sync i) (start : ℤ) (batch : ℕ) (h : List Event) :
    (W.contract sync).Obeys i (fun _ _ => True) (Node.antiEntropy n start batch) h := by
  refine Obeys.step hn (fun tbl ⟨keys, hk⟩ => ?_)
  refine Obeys.bind ?_
  refine Obeys.step hn (fun now _ => ?_)
  exact (syncLoop_obeys hn hsync hk _ _ _ ⟨i, List.mem_cons_self⟩).mono (fun _ _ _ => trivial)

/-! ### The maintenance loop -/

/-- **Every call of the maintenance loop keeps the contract**, and in a steady run a call of
`Migrate` reaches all holders. -/
theorem job_obeys {job : Node.Job} (hn : ∀ n, job.node = some n → n ∈ W.ids)
    (hdetect : ∀ n threshold, job = .detectFailures n threshold → ¬ W.steady)
    (hsync : ∀ n start batch, job = .antiEntropy n start batch → sync i) (h : List Event) :
    (W.contract sync).Obeys i (fun _ h' => ∀ n, job = .rebalance n → W.steady → W.Migrated n h')
      (job.prog W.addr) h := by
  have any : ∀ {p : Prog Unit}, (∀ n, job ≠ .rebalance n) →
      (W.contract sync).Obeys i (fun _ _ => True) p h → (W.contract sync).Obeys i
        (fun _ h' => ∀ n, job = .rebalance n → W.steady → W.Migrated n h') p h :=
    fun hne hp => hp.mono (fun _ _ _ n hj => absurd hj (hne n))
  cases job with
  | idle => exact any (by simp) trivial
  | gossip n => exact any (by simp) (gossip_obeys (hn n rfl) h)
  | join n seeds => exact any (by simp) (join_obeys ⟨hn n rfl, rfl⟩ seeds h)
  | detectFailures n threshold =>
    exact any (by simp) (detectFailures_obeys (hn n rfl) (hdetect n _ rfl) _ h)
  | pruneTombstones n ttl =>
    exact any (by simp) (Obeys.step (hn n rfl) (fun _ _ => trivial))
  | antiEntropy n start batch =>
    exact any (by simp) (antiEntropy_obeys (hn n rfl) (hsync n _ _ rfl) start batch h)
  | rebalance n =>
    refine Obeys.bind ((rebalance_obeys (hn n rfl) h).mono (fun _ _ hq m hm => ?_))
    injection hm with hm
    exact hm ▸ hq
  | sweep n => exact any (by simp) (Obeys.step (hn n rfl) (fun _ _ => trivial))

end Watch

end Medusa
