import Staut.Hook.Proof.Control

/-!
# The bytes that a call moves

`Data cfg a s …`: how far the call `a`, made in the store `s`, has moved its bytes. Of the range up
to `j` every byte is in its place, or in the data of a read that waits to be reaped (`Data.got`); no
other byte of a file has changed (`Data.old`). It speaks about the queue pairs only through their
requests and waiting completions (`Machine.hist`), so that most steps of the machine keep it.
-/

set_option autoImplicit false

namespace Hook

open CSem Run Myfs Nvme Cyclic

/-! ## Waiting reads -/

/-- The requests of each queue pair and its completions not yet reaped. -/
abbrev Hists := Nat → Nat → List Issued × List Done

def hists (q : Nat → Nat → Queue) : Hists := fun did c => ((q did c).issued, (q did c).waiting)

/-- The completion `d` of the read `x` waits on the queue pair of `did` and `c`. -/
structure Waits (h : Hists) (did c : Nat) (d : Done) (x : Issued) : Prop where
  mem : d ∈ (h did c).2
  issued : (h did c).1[d.cmd.seq]? = some x
  read : x.req.opc = .read

/-- The history of one queue pair replaced. -/
def Hists.set (h : Hists) (did c : Nat) (p : List Issued × List Done) : Hists :=
  Function.update h did (Function.update (h did) c p)

theorem Hists.set_apply (h : Hists) (did c : Nat) (p : List Issued × List Done) (d e : Nat) :
    h.set did c p d e = if d = did ∧ e = c then p else h d e := by
  unfold Hists.set
  by_cases hd : d = did
  · subst hd
    by_cases he : e = c
    · simp [he]
    · simp [he]
  · simp [hd]

theorem hists_setQueue (m : Machine) (did c : Nat) (q : Queue) :
    hists (m.setQueue did c q).q = (hists m.q).set did c (q.issued, q.waiting) := by
  funext d e
  rw [Hists.set_apply]
  unfold hists
  rw [setQueue_q]
  split <;> rfl

/-- A step that issues and reaps nothing. -/
theorem hists_quiet {m : Machine} {did c : Nat} {q : Queue} (hi : q.issued = (m.q did c).issued)
    (hw : q.waiting = (m.q did c).waiting) : hists (m.setQueue did c q).q = hists m.q := by
  rw [hists_setQueue]
  funext d e
  rw [Hists.set_apply]
  split
  · rename_i he
    rw [he.1, he.2, hi, hw]
    rfl
  · rfl

section
variable {h : Hists} {did c : Nat} {xs : List Issued} {ds : List Done}

/-- The oldest completion is reaped. -/
theorem waits_reap {d : Done} (hh : h did c = (xs, d :: ds)) {did' c' : Nat} {d' : Done}
    {x' : Issued} (hw : Waits (h.set did c (xs, ds)) did' c' d' x') : Waits h did' c' d' x' := by
  have hm := hw.mem
  have hi := hw.issued
  rw [Hists.set_apply] at hm hi
  split at hm
  · rename_i he
    obtain ⟨rfl, rfl⟩ := he
    rw [if_pos ⟨rfl, rfl⟩] at hi
    refine ⟨?_, ?_, hw.read⟩
    · rw [hh]
      exact List.mem_cons_of_mem _ hm
    · rw [hh]
      exact hi
  · rename_i he
    rw [if_neg he] at hi
    exact ⟨hm, hi, hw.read⟩

/-- The other completions keep waiting. -/
theorem waits_reap_of_ne {d : Done} (hh : h did c = (xs, d :: ds)) {did' c' : Nat} {d' : Done}
    {x' : Issued} (hw : Waits h did' c' d' x') (hne : ¬ (did' = did ∧ c' = c ∧ d' = d)) :
    Waits (h.set did c (xs, ds)) did' c' d' x' := by
  have hm := hw.mem
  have hi := hw.issued
  refine ⟨?_, ?_, hw.read⟩ <;> rw [Hists.set_apply] <;> split
  · rename_i he
    rw [he.1, he.2, hh] at hm
    exact (List.mem_cons.1 hm).resolve_left fun hd => hne ⟨he.1, he.2, hd⟩
  · exact hm
  · rename_i he
    rw [he.1, he.2, hh] at hi
    exact hi
  · exact hi

/-- A new request with its completion. -/
theorem waits_submit {x : Issued} {d : Done} (hh : h did c = (xs, ds))
    (hlt : ∀ d ∈ ds, d.cmd.seq < xs.length) (hd : d.cmd.seq = xs.length) {did' c' : Nat} {d' : Done}
    {x' : Issued} : Waits (h.set did c (xs ++ [x], ds ++ [d])) did' c' d' x' ↔
      Waits h did' c' d' x' ∨ (did' = did ∧ c' = c ∧ d' = d ∧ x' = x ∧ x.req.opc = .read) := by
  by_cases he : did' = did ∧ c' = c
  · obtain ⟨rfl, rfl⟩ := he
    constructor
    · rintro ⟨hm, hi, hr⟩
      rw [Hists.set_apply, if_pos ⟨rfl, rfl⟩] at hm hi
      rcases List.mem_append.1 hm with hm | hm
      · rw [List.getElem?_append_left (hlt d' hm)] at hi
        exact .inl ⟨by rw [hh]; exact hm, by rw [hh]; exact hi, hr⟩
      · obtain rfl := List.mem_singleton.1 hm
        rw [hd] at hi
        simp only [List.getElem?_concat_length, Option.some.injEq] at hi
        subst hi
        exact .inr ⟨rfl, rfl, rfl, rfl, hr⟩
    · rintro (⟨hm, hi, hr⟩ | ⟨-, -, rfl, rfl, hr⟩)
      · rw [hh] at hm hi
        refine ⟨?_, ?_, hr⟩ <;> rw [Hists.set_apply, if_pos ⟨rfl, rfl⟩]
        · exact List.mem_append_left _ hm
        · rw [List.getElem?_append_left (hlt d' hm)]
          exact hi
      · refine ⟨?_, ?_, hr⟩ <;> rw [Hists.set_apply, if_pos ⟨rfl, rfl⟩]
        · exact List.mem_append_right _ List.mem_cons_self
        · rw [hd]
          exact List.getElem?_concat_length
  · constructor
    · rintro ⟨hm, hi, hr⟩
      rw [Hists.set_apply, if_neg he] at hm hi
      exact .inl ⟨hm, hi, hr⟩
    · rintro (⟨hm, hi, hr⟩ | ⟨h1, h2, -⟩)
      · refine ⟨?_, ?_, hr⟩ <;> rw [Hists.set_apply, if_neg he]
        · exact hm
        · exact hi
      · exact absurd ⟨h1, h2⟩ he

end

/-! ## Progress of a call -/

/-- Byte `o` of the buffer is in the data of a read that waits. -/
def Arrives (a : Args) (h : Hists) (o : Nat) : Prop :=
  ∃ did d x, Waits h did a.coreId d x ∧ x.req.buf ≤ a.buf + o ∧ a.buf + o < x.req.buf + x.req.len

/-- Offset `x` of slot `i` is not in the part up to `j` that the call writes. -/
def Kept (a : Args) (j i x : Nat) : Prop :=
  a.kind = .write → i = a.file → a.pos ≤ x → a.pos + j ≤ x

/-- The read's data is what the file holds. -/
def Served (cfg : Cfg) (a : Args) (sb : Superblock) (disk : Nat → Nat → UInt8) (j : Nat) (d : Done)
    (x : Issued) : Prop :=
  ∃ o, o + x.req.len ≤ j ∧ x.req.buf = a.buf + o ∧
    ∀ k < x.req.len, content cfg sb disk a.file (a.pos + (o + k)) = some (d.data.getD k 0)

structure Data (cfg : Cfg) (a : Args) (s : Store) (sb : Superblock) (disk : Nat → Nat → UInt8)
    (mem : Nat → UInt8) (h : Hists) (j : Nat) (keys : List (Nat × Nat)) : Prop where
  ring : Ring sb
  room : Room sb a
  sb_read : a.kind = .read → sb = s.fs.sb
  others : ∀ i, i ≠ a.file → sb.file i = s.fs.sb.file i
  mem_write : a.kind = .write → mem = s.mem
  old : ∀ i < MYFS_MAX_FILES, ∀ x, x / MYFS_BLOCK_SIZE < MYFS_MAX_BLOCKS_PER_FILE → Kept a j i x →
    ∀ b, content cfg s.fs.sb s.disk i x = some b → content cfg sb disk i x = some b
  got : ∀ o < j, content cfg sb disk a.file (a.pos + o) = some (mem (a.buf + o)) ∨ Arrives a h o
  reads : ∀ did c d x, Waits h did c d x → a.kind = .read ∧ c = a.coreId ∧
    (did, d.cmd.seq) ∈ keys ∧ Served cfg a sb disk j d x

section
variable {cfg : Cfg} {a : Args} {s : Store} {sb : Superblock} {disk : Nat → Nat → UInt8}
  {mem : Nat → UInt8} {h : Hists} {j : Nat} {keys : List (Nat × Nat)}

theorem mem_missing {k : Nat} : k ∈ missing sb a ↔
    k ∈ blocksOf a.pos a.len ∧ (sb.file a.file).block k = INACTIVE_BLOCK := Finset.mem_filter

/-- There is a free block for an inactive block of the range. -/
theorem Room.free {k : Nat} (hr : Room sb a) (hR : Ring sb) (hk : k ∈ missing sb a)
    (hw : a.kind = .write) : sb.freeBlocksRp ≠ sb.freeBlocksWp := by
  have hle := hr hw
  have hpos := Finset.card_pos.2 ⟨k, hk⟩
  intro he
  rw [(cycLen_eq_zero hR.rp_lt hR.wp_lt).2 he] at hle
  omega

theorem Room.alloc {k : Nat} (hr : Room sb a) (hR : Ring sb) (hk : k ∈ missing sb a)
    (hne : sb.freeBlocksRp ≠ sb.freeBlocksWp)
    (hb : sb.freeBlocks sb.freeBlocksRp ≠ INACTIVE_BLOCK) :
    Room (allocBlock sb a.file k) a := by
  intro hw
  have hle := hr hw
  have hsub : missing (allocBlock sb a.file k) a ⊆ (missing sb a).erase k := by
    intro l hl
    obtain ⟨hl1, hl2⟩ := mem_missing.1 hl
    rw [allocBlock_file, if_pos rfl] at hl2
    simp only [setBlock_block] at hl2
    split at hl2
    · exact absurd hl2 hb
    · rename_i hlk
      exact Finset.mem_erase.2 ⟨hlk, mem_missing.2 ⟨hl1, hl2⟩⟩
  have hcard := Finset.card_le_card hsub
  rw [Finset.card_erase_of_mem hk] at hcard
  have hpop := cycLen_pop hR.rp_lt hR.wp_lt hne
  show _ ≤ cycLen NUM_BLOCKS ((sb.freeBlocksRp + 1) % NUM_BLOCKS) sb.freeBlocksWp
  omega

theorem Served.mono {sb' : Superblock} {disk' : Nat → Nat → UInt8} {j' : Nat} {d : Done}
    {x : Issued} (hs : Served cfg a sb disk j d x) (hj : j ≤ j')
    (hc : ∀ o < j, ∀ b, content cfg sb disk a.file (a.pos + o) = some b →
      content cfg sb' disk' a.file (a.pos + o) = some b) : Served cfg a sb' disk' j' d x := by
  obtain ⟨o, ho, hb, hd⟩ := hs
  exact ⟨o, by omega, hb, fun k hk => hc _ (by omega) _ (hd k hk)⟩

section
variable (hD : Data cfg a s sb disk mem h j keys)
include hD

theorem Data.alloc (hfile : a.file < MYFS_MAX_FILES) (hw : a.kind = .write) {k : Nat}
    (hk : k < MYFS_MAX_BLOCKS_PER_FILE) (hmem : k ∈ missing sb a) :
    Data cfg a s (allocBlock sb a.file k) disk mem h j keys := by
  have hne := hD.room.free hD.ring hmem hw
  have hf := (mem_missing.1 hmem).2
  obtain ⟨hring, hb⟩ := hD.ring.alloc hfile hk hf hne
  refine ⟨hring, hD.room.alloc hD.ring hmem hne hb, (fun hr => by rw [hw] at hr; cases hr),
    fun i hi => ?_, hD.mem_write, fun i hi x hx hn b h0 => ?_, fun o ho => ?_,
    fun did c d x hwt => ?_⟩
  · rw [allocBlock_file, if_neg hi]
    exact hD.others i hi
  · exact content_alloc hf (hD.old i hi x hx hn b h0)
  · exact (hD.got o ho).imp_left (content_alloc hf)
  · obtain ⟨hr, -⟩ := hD.reads did c d x hwt
    rw [hw] at hr
    cases hr

/-- The oldest completion is reaped. -/
theorem Data.reap {did : Nat} {xs : List Issued} {d : Done} {ds : List Done}
    (hh : h did a.coreId = (xs, d :: ds)) {x : Issued} (hx : xs[d.cmd.seq]? = some x)
    (hlen : x.req.opc = .read → x.req.len ≤ d.data.length) :
    Data cfg a s sb disk
      (if x.req.opc = .read then store mem x.req.buf (d.data.take x.req.len) else mem)
      (h.set did a.coreId (xs, ds)) j keys := by
  have hreads : ∀ did' c' d' x', Waits (h.set did a.coreId (xs, ds)) did' c' d' x' →
      a.kind = .read ∧ c' = a.coreId ∧ (did', d'.cmd.seq) ∈ keys ∧ Served cfg a sb disk j d' x' :=
    fun did' c' d' x' hw => hD.reads did' c' d' x' (waits_reap hh hw)
  by_cases hr : x.req.opc = .read
  · have hwt : Waits h did a.coreId d x :=
      ⟨by rw [hh]; exact List.mem_cons_self, by rw [hh]; exact hx, hr⟩
    obtain ⟨hrd, -, -, o, ho, hbuf, hdat⟩ := hD.reads _ _ _ _ hwt
    have hl : (d.data.take x.req.len).length = x.req.len := by
      rw [List.length_take]
      exact Nat.min_eq_left (hlen hr)
    rw [if_pos hr]
    refine ⟨hD.ring, hD.room, hD.sb_read, hD.others, (fun hw => by rw [hrd] at hw; cases hw),
      hD.old, fun o' ho' => ?_, hreads⟩
    by_cases hin : x.req.buf ≤ a.buf + o' ∧ a.buf + o' < x.req.buf + x.req.len
    · -- the byte has just been copied
      obtain ⟨k, rfl⟩ := Nat.exists_eq_add_of_le (show o ≤ o' by omega)
      have hk : k < x.req.len := by omega
      left
      rw [hdat k hk, hbuf, ← Nat.add_assoc, store_inside (by omega)]
      congr 1
      rw [List.getD_eq_getElem _ _ (by have := hlen hr; omega), List.getD_eq_getElem _ _ (by omega),
        List.getElem_take]
    · rw [store_outside (by omega)]
      rcases hD.got o' ho' with h0 | ⟨did', d', x', hw', h1, h2⟩
      · exact .inl h0
      · refine .inr ⟨did', d', x', waits_reap_of_ne hh hw' ?_, h1, h2⟩
        rintro ⟨rfl, -, rfl⟩
        have hi := hw'.issued
        rw [hh] at hi
        obtain rfl := Option.some.inj (hx.symm.trans hi)
        exact hin ⟨h1, h2⟩
  · rw [if_neg hr]
    refine ⟨hD.ring, hD.room, hD.sb_read, hD.others, hD.mem_write, hD.old, fun o' ho' => ?_, hreads⟩
    refine (hD.got o' ho').imp_right ?_
    rintro ⟨did', d', x', hw', h1, h2⟩
    refine ⟨did', d', x', waits_reap_of_ne hh hw' ?_, h1, h2⟩
    rintro ⟨rfl, -, rfl⟩
    have hi := hw'.issued
    rw [hh] at hi
    obtain rfl := Option.some.inj (hx.symm.trans hi)
    exact hr hw'.read

section
variable {did n : Nat} {xs : List Issued} {ds : List Done} {x : Issued} {d : Done}
  (hh : h did a.coreId = (xs, ds)) (hlt : ∀ d ∈ ds, d.cmd.seq < xs.length)
  (hd : d.cmd.seq = xs.length)
include hh hlt hd

omit hD in
theorem Arrives.submit {o : Nat} (ha : Arrives a h o) :
    Arrives a (h.set did a.coreId (xs ++ [x], ds ++ [d])) o := by
  obtain ⟨did', d', x', hw, h1, h2⟩ := ha
  exact ⟨did', d', x', (waits_submit hh hlt hd).2 (.inl hw), h1, h2⟩

/-- A read of the next `n` bytes, executed. -/
theorem Data.submitRead (hk : a.kind = .read) (hr : x.req.opc = .read) (hl : x.req.len = n)
    (hb : x.req.buf = a.buf + j)
    (hdat : ∀ k < n, content cfg sb disk a.file (a.pos + (j + k)) = some (d.data.getD k 0)) :
    Data cfg a s sb disk mem (h.set did a.coreId (xs ++ [x], ds ++ [d])) (j + n)
      (keys ++ [(did, xs.length)]) := by
  refine ⟨hD.ring, hD.room, hD.sb_read, hD.others, hD.mem_write, fun i hi y hy _ => ?_,
    fun o ho => ?_, fun did' c' d' x' hw => ?_⟩
  · exact hD.old i hi y hy fun hw => by rw [hk] at hw; cases hw
  · by_cases hoj : o < j
    · exact (hD.got o hoj).imp_right (Arrives.submit hh hlt hd)
    · exact .inr ⟨did, d, x, (waits_submit hh hlt hd).2 (.inr ⟨rfl, rfl, rfl, rfl, hr⟩), by omega,
        by omega⟩
  · rcases (waits_submit hh hlt hd).1 hw with hw | ⟨rfl, rfl, rfl, rfl, -⟩
    · obtain ⟨h1, h2, h3, h4⟩ := hD.reads _ _ _ _ hw
      exact ⟨h1, h2, List.mem_append_left _ h3, h4.mono (Nat.le_add_right j n) fun _ _ _ hc => hc⟩
    · refine ⟨hk, rfl, List.mem_append_right _ (by rw [hd]; exact List.mem_cons_self),
        j, ?_, hb, ?_⟩
      · rw [hl]
      · rw [hl]
        exact hdat

/-- A write of the next `n` bytes, executed. -/
theorem Data.submitWrite (ha : a.Ok cfg) (hk : a.kind = .write) (hr : x.req.opc = .write)
    (hn : j + n ≤ a.len) {disk' : Nat → Nat → UInt8}
    (hc : ∀ i < MYFS_MAX_FILES, ∀ y, y / MYFS_BLOCK_SIZE < MYFS_MAX_BLOCKS_PER_FILE →
      content cfg sb disk' i y = if i = a.file ∧ a.pos + j ≤ y ∧ y < a.pos + j + n
        then some (mem (a.buf + (y - a.pos))) else content cfg sb disk i y) :
    Data cfg a s sb disk' mem (h.set did a.coreId (xs ++ [x], ds ++ [d])) (j + n)
      (keys ++ [(did, xs.length)]) := by
  refine ⟨hD.ring, hD.room, hD.sb_read, hD.others, hD.mem_write, fun i hi y hy hkept b h0 => ?_,
    fun o ho => ?_, fun did' c' d' x' hw => ?_⟩
  · rw [hc i hi y hy, if_neg fun hin => ?_]
    · refine hD.old i hi y hy (fun hw he hp => ?_) b h0
      have := hkept hw he hp
      omega
    · have := hkept hk hin.1 (by omega)
      omega
  · have hfits := ha.fits
    have hy : (a.pos + o) / MYFS_BLOCK_SIZE < MYFS_MAX_BLOCKS_PER_FILE :=
      Nat.div_lt_of_lt_mul (by rw [Nat.mul_comm]; omega)
    rw [hc _ ha.file _ hy]
    split
    · rw [Nat.add_sub_cancel_left]
      exact .inl rfl
    · rename_i hout
      have hoj : o < j := by
        apply Classical.byContradiction
        intro hno
        exact hout ⟨rfl, by omega, by omega⟩
      exact (hD.got o hoj).imp_right (Arrives.submit hh hlt hd)
  · rcases (waits_submit hh hlt hd).1 hw with hw | ⟨-, -, -, -, hrd⟩
    · obtain ⟨h1, -⟩ := hD.reads _ _ _ _ hw
      rw [hk] at h1
      cases h1
    · rw [hr] at hrd
      cases hrd

end

end

end

/-! ## The steps of a call -/

/-- The request `r` to drive `did` is for the chunk at the call's offset. -/
def Asked (cfg : Cfg) (a : Args) (sb : Superblock) (c : IoCall) (did : Nat) (r : Req) : Prop :=
  (sb.file a.file).block ((a.pos + c.j.toNat) / MYFS_BLOCK_SIZE) ≠ INACTIVE_BLOCK ∧
    ∃ lba, lba = lbaOf ((sb.file a.file).block ((a.pos + c.j.toNat) / MYFS_BLOCK_SIZE))
        (a.pos + c.j.toNat) ∧ r = c.chunk a lba ∧ did = (driveOf cfg lba).toNat

def Rq.key (r : Rq) : Nat × Nat := (r.did, r.seq)

/-- A call `a` in progress, made in the store `s`. -/
structure Body (cfg : Cfg) (a : Args) (s : Store) (n : Node) : Prop where
  ctl : Ctl cfg a n
  data : Data cfg a s n.m.fs.sb n.disk n.m.mem (hists n.m.q) n.m.call.j.toNat (n.m.rqs.map Rq.key)
  asked : ∀ did r, n.m.busy = some (did, n.m.call.coreId) → (n.m.own did).pc.req? = some r →
    Asked cfg a n.m.fs.sb n.m.call did r

theorem key_check (rid : Int) (rqs : List Rq) :
    (rqs.map (Rq.check rid)).map Rq.key = rqs.map Rq.key := by
  rw [List.map_map]
  refine List.map_congr_left fun r _ => ?_
  show (Rq.check rid r).key = r.key
  unfold Rq.check
  split <;> rfl

theorem Data.quiet {cfg : Cfg} {a : Args} {s : Store} {sb : Superblock} {disk : Nat → Nat → UInt8}
    {mem : Nat → UInt8} {m : Machine} {j : Nat} {keys : List (Nat × Nat)}
    (hD : Data cfg a s sb disk mem (hists m.q) j keys) {did : Nat} {q : Queue}
    (hi : q.issued = (m.own did).issued) (hw : q.waiting = (m.own did).waiting) :
    Data cfg a s sb disk mem (hists (m.setOwn did q).q) j keys := by
  unfold Machine.setOwn
  rw [hists_quiet hi hw]
  exact hD

/-- What the drive does with the command of a request for `n` bytes. -/
theorem exec_submit (cfg : Cfg) (did coreId : Nat) (q : Queue) (mem d : Nat → UInt8)
    (seq : Nat) {r : Req} (h1 : r.len = 512 * r.numBlk) (h0 : 0 < r.numBlk) :
    (r.opc = .read → execCmd (q.submit cfg did coreId mem r).qp d
        ⟨seq, (q.submit cfg did coreId mem r).qp.sqe q.qp.sqTail⟩ =
      (load d (512 * cdw10Of cfg r.lba) r.len, d)) ∧
    (r.opc = .write → execCmd (q.submit cfg did coreId mem r).qp d
        ⟨seq, (q.submit cfg did coreId mem r).qp.sqe q.qp.sqTail⟩ =
      ([], store d (512 * cdw10Of cfg r.lba) (load mem r.buf r.len))) := by
  have hn : 512 * (r.numBlk - 1 + 1) = r.len := by omega
  have hsqe : (q.submit cfg did coreId mem r).qp.sqe q.qp.sqTail = { q.qp.sqe q.qp.sqTail with
      prp1 := getBuf4k q.qp.sqTail, opc := r.opc, cdw10 := cdw10Of cfg r.lba,
      cdw12 := r.numBlk - 1 } := by
    simp only [Queue.submit, request_sqe, Function.update_self]
  rw [hsqe]
  refine ⟨fun hr => ?_, fun hr => ?_⟩
  · simp only [execCmd, hr, hn]
  · have hb := request_bounce_same cfg q.qp mem r hr
    unfold QP.bounce at hb
    simp only [execCmd, hr, hn]
    congr 2

section
variable {cfg : Cfg} {a : Args} {s : Store} {n n' : Node} (hok : a.Ok cfg)
  (hfit : cfg.ND * cfg.N_CORE * QD ≤ 2 ^ 31) (hND : 0 < cfg.ND) (h : Body cfg a s n)
include h

include hok in
/-- `myfs_get_lba` for the chunk at the call's offset. -/
theorem Body.getLba {lba : Int} {fs : State} (hlt : n.m.call.j < n.m.call.len)
    (hg : myfsGetLba n.m.fs a.file (a.pos + n.m.call.j.toNat) a.kind.flag = .ok (lba, fs)) :
    Data cfg a s fs.sb n.disk n.m.mem (hists n.m.q) n.m.call.j.toNat (n.m.rqs.map Rq.key) ∧
      Asked cfg a fs.sb n.m.call (driveOf cfg lba).toNat (n.m.call.chunk a lba) := by
  obtain ⟨-, hk, hmem⟩ := h.ctl.shape.offset hok hlt
  obtain ⟨k, -, hk', hact, hlba, hor⟩ := myfsGetLba_ok hg
  rw [wrap32_iBlock hk] at hk'
  obtain rfl := Int.ofNat_inj.1 hk'
  refine ⟨?_, hact, lba, hlba, rfl, rfl⟩
  rcases hor with ⟨-, rfl⟩ | ⟨hw, hf, rfl⟩
  · exact h.data
  · have hkind : a.kind = .write := by
      cases hk : a.kind with
      | read =>
        rw [hk] at hw
        cases hw
      | write => rfl
    exact h.data.alloc hok.file hkind hk (mem_missing.2 ⟨hmem, hf⟩)

/-- The completion that `check_cq` reaps. -/
theorem Body.reap {did : Nat} (hd : did < cfg.ND)
    (hr : (n.m.own did).reaped.length < (n.m.own did).dev.posted.length) (p : Pc) :
    Data cfg a s n.m.fs.sb n.disk ((n.m.own did).reap n.m.mem).2
      (hists (n.m.setOwn did { ((n.m.own did).reap n.m.mem).1 with pc := p }).q)
      n.m.call.j.toNat (n.m.rqs.map Rq.key) := by
  have hq := h.ctl.own_inv hd
  obtain ⟨d, hd', hwait⟩ := reap_waiting n.m.mem hr
  have hmem : d ∈ (n.m.own did).waiting := by
    rw [hwait]
    exact List.mem_cons_self
  have hlive : d.cmd ∈ (n.m.own did).live := List.mem_append_right _ (List.mem_map_of_mem hmem)
  obtain ⟨x, hx, -⟩ := hq.live_cmd hlive
  unfold Machine.setOwn
  rw [hq.reap_mem hd' hmem hx, hists_setQueue, h.ctl.shape.coreId]
  refine h.data.reap ?_ hx fun hrd => (hq.bounce_waiting hmem hx hrd).2.2
  show ((n.m.q did a.coreId).issued, (n.m.q did a.coreId).waiting) = _
  have hown : n.m.q did a.coreId = n.m.own did := by
    unfold Machine.own
    rw [h.ctl.shape.coreId]
  rw [hown, hwait]
  rfl

include hok in
/-- The request past the polling loop, with its execution by the drive. -/
theorem Body.submit {did k : Nat} {r : Req} {q : Queue} {c : Cmd} {rid : Int}
    (ha : Asked cfg a n.m.fs.sb n.m.call did r) (hd : did < cfg.ND)
    (hlt : n.m.call.j < n.m.call.len)
    (hq : q = (n.m.own did).submit cfg did n.m.call.coreId n.m.mem r)
    (hc : c = ⟨(n.m.own did).issued.length, q.qp.sqe (n.m.own did).qp.sqTail⟩) :
    Data cfg a s n.m.fs.sb (Function.update n.disk did (execCmd q.qp (n.disk did) c).2) n.m.mem
      (hists (n.m.setOwn did (q.complete 0 c (execCmd q.qp (n.disk did) c).1)).q)
      (n.m.call.after k rid).j.toNat
      ((n.m.rqs ++ [(⟨did, (n.m.own did).issued.length, rid, false⟩ : Rq)]).map Rq.key) := by
  have hsh := h.ctl.shape
  obtain ⟨hact, lba, hlba, hr, hdid⟩ := ha
  obtain ⟨-, hk, -⟩ := hsh.offset hok hlt
  obtain ⟨hw, hadd, hle⟩ := hsh.advance hok.len_le hlt
  have hchunk := hsh.chunk hok hlt
  have h0 := hsh.j_nonneg
  obtain ⟨-, hcut⟩ := hsh.cut (by omega)
  have hsec := hcut.sector
  have hbpos := hcut.b_pos
  have hj : (n.m.call.after k rid).j.toNat = n.m.call.j.toNat + n.m.call.blksz.toNat := by
    show (wrap32 (n.m.call.j + n.m.call.blksz)).toNat = _
    rw [hw, hadd]
  have hlen : r.len = 512 * r.numBlk ∧ 0 < r.numBlk := by
    rw [hr]
    simp only [IoCall.chunk]
    omega
  obtain ⟨hread, hwrite⟩ := exec_submit cfg did n.m.call.coreId (n.m.own did) n.m.mem (n.disk did)
    (n.m.own did).issued.length hlen.1 hlen.2
  rw [← hq, ← hc] at hread hwrite
  have hown : n.m.q did a.coreId = n.m.own did := by
    unfold Machine.own
    rw [hsh.coreId]
  have hqi := h.ctl.own_inv hd
  have hhist : ∀ data, hists (n.m.setOwn did (q.complete 0 c data)).q =
      (hists n.m.q).set did a.coreId ((n.m.own did).issued ++
        [⟨r, (n.m.own did).qp.sqTail, ridOf cfg did n.m.call.coreId (n.m.own did).qp.sqTail⟩],
        (n.m.own did).waiting ++ [⟨c, data⟩]) := by
    intro data
    unfold Machine.setOwn
    have hwait : (q.complete 0 c data).waiting = (n.m.own did).waiting ++ [⟨c, data⟩] := by
      rw [hq]
      exact List.drop_append_of_le_length hqi.reaped_le
    have hiss : (q.complete 0 c data).issued = (n.m.own did).issued ++
        [⟨r, (n.m.own did).qp.sqTail, ridOf cfg did n.m.call.coreId (n.m.own did).qp.sqTail⟩] := by
      rw [hq]
      rfl
    rw [hists_setQueue, hwait, hiss, hsh.coreId]
  have hh : hists n.m.q did a.coreId = ((n.m.own did).issued, (n.m.own did).waiting) := by
    unfold hists
    rw [hown]
  have hseq : ∀ d ∈ (n.m.own did).waiting, d.cmd.seq < (n.m.own did).issued.length := by
    intro d hd'
    obtain ⟨x, hx, -⟩ := hqi.live_cmd (List.mem_append_right _ (List.mem_map_of_mem hd'))
    exact (List.getElem?_eq_some_iff.1 hx).1
  rw [hhist, hj, List.map_append]
  have hkind : r.opc = a.kind.opc := by
    rw [hr]
    rfl
  cases hak : a.kind with
  | read =>
    rw [hak] at hkind
    rw [hread hkind, Function.update_eq_self]
    refine h.data.submitRead hh hseq (by rw [hc]) hak hkind (by rw [hr]; rfl) (by rw [hr]; rfl)
      fun k hk' => ?_
    have hc : content cfg n.m.fs.sb n.disk a.file (a.pos + n.m.call.j.toNat + k) = _ :=
      content_load h.data.ring hok.file hk hact hchunk n.disk hlba hk'
    rw [Nat.add_assoc] at hc
    rw [hc, hdid, hr]
    rfl
  | write =>
    rw [hak] at hkind
    rw [hwrite hkind]
    have hle' := hsh.len_write hak
    refine h.data.submitWrite hh hseq (by rw [hc]) hok hak hkind (by omega) fun i hi y hy => ?_
    have hl : (load n.m.mem r.buf r.len).length = n.m.call.blksz.toNat := by
      rw [length_load, hr]
      rfl
    have hrl : r.lba = lba := by
      rw [hr]
      rfl
    rw [hdid, hrl, content_store h.data.ring hok.file hk hact (by rw [hl]; exact hchunk) n.disk hlba
      hi hy, hl]
    by_cases hin : i = a.file ∧ a.pos + n.m.call.j.toNat ≤ y ∧
        y < a.pos + n.m.call.j.toNat + n.m.call.blksz.toNat
    · have hbuf : r.buf = a.buf + n.m.call.j.toNat ∧ r.len = n.m.call.blksz.toNat := by
        rw [hr]
        exact ⟨rfl, rfl⟩
      rw [if_pos hin, if_pos hin, getD_load (by omega), hbuf.1]
      congr 2
      omega
    · rw [if_neg hin, if_neg hin]

/-- The running request is kept while it polls. -/
theorem Body.asking {did did' : Nat} {q : Queue} {r : Req}
    (hb : n.m.busy = some (did, n.m.call.coreId)) (hq : q.pc.req? = (n.m.own did).pc.req?)
    (he : some (did, n.m.call.coreId) = some (did', n.m.call.coreId))
    (hr : ((n.m.setOwn did q).q did' n.m.call.coreId).pc.req? = some r) :
    Asked cfg a n.m.fs.sb n.m.call did' r := by
  cases he
  rw [own_setOwn, if_pos rfl, hq] at hr
  exact h.asked did r hb hr

include hok hfit hND in
theorem Body.step (hs : n.step cfg = some n') : Body cfg a s n' := by
  have hctl := h.ctl.step hok hfit hND hs
  cases h.ctl.view hok hfit hs with
  | @tau c hb hn =>
    refine ⟨hctl, ?_, fun did r hb' => ?_⟩
    · obtain ⟨-, -, rfl⟩ | ⟨k, -, -, rfl⟩ | ⟨k, i, -, -, rfl⟩ := next_tau hn <;> exact h.data
    · have hb'' : n.m.busy = _ := hb'
      rw [hb] at hb''
      cases hb''
  | @start did lba fs hb hlt hg hdid =>
    obtain ⟨hdata, hask⟩ := h.getLba hok hlt hg
    refine ⟨hctl, hdata.quiet rfl rfl, fun did' r hb' hr => ?_⟩
    cases hb'
    have hr' : ((n.m.setOwn did _).q did n.m.call.coreId).pc.req? = some r := hr
    rw [own_setOwn, if_pos rfl] at hr'
    cases hr'
    rw [← hdid] at hask
    exact hask
  | @ask did rid cont hb hn hd =>
    refine ⟨hctl, h.data.quiet rfl rfl, fun did' r hb' hr => ?_⟩
    cases hb'
    have hr' : ((n.m.setOwn did _).q did n.m.call.coreId).pc.req? = some r := hr
    rw [own_setOwn, if_pos rfl] at hr'
    cases hr'
  | @poll did r hb hpc =>
    refine ⟨hctl, h.data.quiet rfl rfl, fun did' r' hb' hr => h.asking hb ?_ hb' hr⟩
    rw [hpc]
    rfl
  | @leave did r b hb hpc =>
    refine ⟨hctl, h.data.quiet rfl rfl,
      fun did' r' hb' hr => h.asking hb ?_ hb' hr⟩
    rw [hpc]
    rfl
  | @reap did c b hb hpc hr =>
    refine ⟨hctl, h.reap (h.ctl.inv.busy _ _ hb).1 hr _,
      fun did' r' hb' hr => h.asking hb ?_ hb' hr⟩
    rw [hpc]
    cases c <;> rfl
  | @submit did k r q c rid hb hpc hpc' hlt hrid hq hc =>
    have hask := h.asked did r hb (by rw [hpc]; rfl)
    exact ⟨hctl, h.submit hok hask (h.ctl.inv.busy _ _ hb).1 hlt hq hc, nofun⟩
  | @checked did q rid cont hn hd hbn hpc hi hdev hre hdf =>
    refine ⟨hctl, ?_, nofun⟩
    obtain ⟨k, i, -, -, rfl, rfl⟩ := next_check hn
    show Data cfg a s n.m.fs.sb n.disk n.m.mem (hists (n.m.setOwn did q).q) n.m.call.j.toNat
      ((n.m.rqs.map (Rq.check (n.m.call.rid i))).map Rq.key)
    rw [key_check]
    refine h.data.quiet hi ?_
    unfold Queue.waiting
    rw [hdev, hre]

end

end Hook
