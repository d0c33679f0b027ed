import Xnbd.Replies

/-!
# A session of the target or of the copy-on-write target is a flat disk

What the worker puts on the socket, byte for byte, and what is on the disk afterwards
depend only on the disk that the client sees, not on the mode behind it.
-/
namespace Xnbd.SessionDisk

open Block Bytes Nbd Requests FlatDisk CowDisk CowRefine NetIov TargetRead Replies

variable {disksize : Nat}

section Flat

/-- The disk that the clients of a session see. -/
def shown : Disk disksize → File
  | .target file => file
  | .cow ds => ds.logical

/-- What a flat disk puts on the socket for a request. -/
def flatOut (disk : File) (q : Query disksize) : List UInt8 :=
  replyBytes 0 q.handle ++ flatReply disk q.request

def flatOuts : File → List (Query disksize) → List (List UInt8)
  | _, [] => []
  | disk, q :: rest => flatOut disk q :: flatOuts (flatStep disk q.request) rest

def requests (qs : List (Query disksize)) : List (Request disksize) := qs.map Query.request

theorem asked_inside {r : Request disksize} (h : Asked r) : 0 ≤ r.iofrom := by
  rcases h with hserved | hflush
  · exact hserved.2.1
  · rw [(r.admitted.flush hflush).1]

/-- The replies depend on the part of the disk that the requests are for. -/
theorem flatOuts_congr {f g : File} {qs : List (Query disksize)} {bound : Nat}
    (hqs : ∀ q ∈ qs, q.request.start + q.request.iolen ≤ bound) (h : ∀ x < bound, f x = g x) :
    flatOuts f qs = flatOuts g qs := by
  induction qs generalizing f g with
  | nil => rfl
  | cons q rest ih =>
    simp only [List.mem_cons, forall_eq_or_imp] at hqs
    have hreply : flatReply f q.request = flatReply g q.request := by
      unfold flatReply
      split
      · exact slice_congr fun x _ hx => h x (by omega)
      · rfl
    rw [flatOuts, flatOuts, flatOut, flatOut, hreply,
      ih hqs.2 fun x hx => flatStep_congr q.request (h x hx)]

theorem asked_le {q : Query disksize} (hd : disksize ≤ offMax) (h : Asked q.request) :
    q.request.start + q.request.iolen ≤ disksize :=
  start_add_le hd (asked_inside h)

end Flat

section Rounds

variable (pagesize : Nat) {q : Query disksize}

/-- A READ in target mode. -/
theorem target_read_round (disk : File) (hio : q.request.iotype = .read) (h0 : 0 ≤ q.request.iofrom)
    (hsmall : q.request.iolen + sizeofNbdReply < 2 ^ 31) :
    targetModeMainMmap pagesize disk q =
      some (disk, replyBytes 0 q.handle ++ slice disk q.request.start q.request.iolen) := by
  have hok : ¬recvAllOrError q.calls.payload q.request.iolen < 0 :=
    (recvAllOrError_complete q.request.admitted.length).mpr (by omega)
  have hsize : size (replyIov 0 q.request.iolen) = sizeofNbdReply + q.request.iolen := by
    simp [replyIov]
  simp only [targetModeMainMmap, hio, if_neg (Int.not_lt.mpr h0), if_neg hok]
  rw [writevAllOrAbort_whole (by omega) (by simp [replyIov, uioMaxiov]),
    replyIov_cells fun k _ => rfl]
  rfl

/-- A round of target mode. -/
theorem target_round (disk : File) (hd : disksize ≤ offMax) (hq : Asked q.request)
    (ha : Answerable .target q.request) :
    targetModeMainMmap pagesize disk q = some (flatStep disk q.request, flatOut disk q) := by
  have hlen := q.request.admitted.length
  have h0 := asked_inside hq
  cases hio : q.request.iotype with
  | read =>
    simp only [Answerable, hio] at ha
    simp only [target_read_round pagesize disk hio h0 ha, flatStep, flatOut, flatReply, hio]
  | write =>
    simp only [Answerable, hio] at ha
    have hin := start_add_le hd h0
    have hfrom := iofrom_eq_start h0
    obtain ⟨mr, hmr⟩ := Option.isSome_iff_exists.mp
      (@mmapRegionCreate_isSome pagesize _ _ h0
        (show q.request.iofrom + q.request.iolen ≤ offMax by omega))
    simp only [targetModeMainMmap, hio, hmr, sendReply_eq, Option.map_some,
      if_neg ((recvAllOrError_complete hlen).mpr ha), flatStep, flatOut, flatReply, List.append_nil]
  | flush =>
    simp only [targetModeMainMmap, hio, sendReply_eq, Option.map_some, flatStep, flatOut, flatReply,
      List.append_nil]
  | _ => simp [Answerable, hio] at ha

/-- A READ in copy-on-write mode. -/
theorem cow_read_round (ds : DiskStack disksize) (hio : q.request.iotype = .read)
    (hr : Served q.request) (ha : Answerable .cow q.request) :
    Replies.round pagesize (.cow ds) q = some (.cow ds, flatOut ds.logical q) := by
  obtain ⟨d, out, hround, data, hout, hlength⟩ := (cow_read_answers_iff hio hr).mpr ha
  rw [hround]
  rw [round_cow_read hio, Option.bind_eq_some_iff] at hround
  obtain ⟨iov, hread, hsent⟩ := hround
  obtain ⟨sent, hwritev, hpair⟩ := Option.map_eq_some_iff.mp hsent
  cases hpair
  simp only [Answerable, hio] at ha
  have hbytes := diskStackMmapRead_spec hr.2.1 hr.2.2 hread
  have hcount : (chunkIov 0 iov).length ≤ uioMaxiov := by
    rw [chunkIov_length]
    rcases diskStackMmapRead_cases pagesize ds hr with ⟨-, iov', hread', hiov⟩ | ⟨hno, -⟩
    · rw [hread] at hread'
      cases hread'
      omega
    · exact absurd ha.1 hno
  have hsmall : size (chunkIov 0 iov) < 2 ^ 31 := by
    have hle := start_add_le ds.size_max hr.2.1
    have hmax := ds.size_max
    have hpos := hr.2.2
    have hblocks := ha.2
    unfold offMax at hmax
    rw [blockIndexEnd_eq ds.size_max hr.2.1, blockIndexStart_eq hr.2.1,
      getBindexEnd_natCast (by omega) (by omega), getBindexSta_natCast (by omega)] at hblocks
    rw [chunkIov_size, hbytes, slice_length]
    unfold cblocksize uioMaxiov at *
    omega
  rw [writevAllOrAbort_whole hsmall hcount, chunkIov_bytes, hbytes] at hwritev
  cases hwritev
  simp only [flatOut, flatReply, hio]

/-- A WRITE in copy-on-write mode. -/
theorem cow_write_round (ds : DiskStack disksize) (hio : q.request.iotype = .write)
    (hr : Served q.request) (ha : Answerable .cow q.request) :
    ∃ ds', Replies.round pagesize (.cow ds) q = some (.cow ds', flatOut ds.logical q) ∧
      ∀ x < disksize, ds'.logical x = flatStep ds.logical q.request x := by
  obtain ⟨d, out, hround, -⟩ := (@cow_write_answers_iff _ pagesize _ _ hio hr).mpr ha
  simp only [Replies.round] at hround
  split at hround
  · rename_i ds' reply hserved
    have hheader := (targetModeMainCow_write hio hserved).1
    obtain ⟨hlogical, -, -⟩ := targetModeMainCow_refines hr hserved
    refine ⟨ds', ?_, hlogical⟩
    simp only [Replies.round, hserved, hheader, sendCow, hio, sendReply_eq, reduceCtorEq, if_true,
      if_false, Option.bind_some, Option.map_some, flatOut, flatReply, List.append_nil]
  · cases hround

theorem round_flat (hd : disksize ≤ offMax) (d : Disk disksize) (hq : Asked q.request)
    (ha : Answerable d.mode q.request) :
    ∃ d', Replies.round pagesize d q = some (d', flatOut (shown d) q) ∧ d'.mode = d.mode ∧
      ∀ x < disksize, shown d' x = flatStep (shown d) q.request x := by
  cases d with
  | target file =>
    refine ⟨.target (flatStep file q.request), ?_, rfl, fun _ _ => rfl⟩
    simp only [Replies.round, target_round pagesize file hd hq ha, Option.map_some]
    rfl
  | cow ds =>
    cases hio : q.request.iotype with
    | read =>
      have hr : Served q.request := by simpa [Asked, hio] using hq
      refine ⟨.cow ds, cow_read_round pagesize ds hio hr ha, rfl, fun x _ => ?_⟩
      simp only [flatStep, hio]
    | write =>
      have hr : Served q.request := by simpa [Asked, hio] using hq
      obtain ⟨ds', hround, hlogical⟩ := cow_write_round pagesize ds hio hr ha
      exact ⟨.cow ds', hround, rfl, hlogical⟩
    | _ => simp [Disk.mode, Answerable, hio] at ha

end Rounds

/-- A session that asks what its mode answers gets the replies of the flat disk that it
sees, and leaves that disk with its requests carried out. -/
theorem session_flat (pagesize : Nat) (hd : disksize ≤ offMax) (d : Disk disksize) {qs : List (Query disksize)}
    (hqs : ∀ q ∈ qs, Asked q.request) (ha : ∀ q ∈ qs, Answerable d.mode q.request) :
    ∃ d', session pagesize d qs = some (d', flatOuts (shown d) qs) ∧ d'.mode = d.mode ∧
      ∀ x < disksize, shown d' x = flatRun (shown d) (requests qs) x := by
  induction qs generalizing d with
  | nil => exact ⟨d, rfl, rfl, fun _ _ => rfl⟩
  | cons q rest ih =>
    simp only [List.mem_cons, forall_eq_or_imp] at hqs ha
    obtain ⟨mid, hround, hmode, hmid⟩ := round_flat pagesize hd d hqs.1 ha.1
    obtain ⟨last, hsession, hlastmode, hlast⟩ := ih mid hqs.2 (by rw [hmode]; exact ha.2)
    refine ⟨last, ?_, hlastmode.trans hmode, fun x hx => ?_⟩
    · simp only [session, hround, Option.bind_some, hsession, Option.map_some]
      rw [flatOuts, flatOuts_congr (fun q hq => asked_le hd (hqs.2 q hq)) hmid]
    · rw [hlast x hx]
      exact flatRun_congr (requests rest) (hmid x hx)

/-- A client cannot tell the two modes apart: on disks that show the same bytes the same
requests get the same bytes on the socket and leave the same bytes on the disk. -/
theorem modes_agree (pagesize : Nat) (file : File) (ds : DiskStack disksize)
    (hsame : ∀ x < disksize, file x = ds.logical x) (qs : List (Query disksize))
    (hqs : ∀ q ∈ qs, Asked q.request)
    (htarget : ∀ q ∈ qs, Answerable .target q.request)
    (hcow : ∀ q ∈ qs, Answerable .cow q.request) :
    ∃ file' ds', session pagesize (.target file) qs = some (.target file', flatOuts file qs) ∧
      session pagesize (.cow ds) qs = some (.cow ds', flatOuts file qs) ∧
      ∀ x < disksize, file' x = flatRun file (requests qs) x ∧ ds'.logical x = file' x := by
  obtain ⟨d₁, hsession₁, hmode₁, hshown₁⟩ :=
    session_flat pagesize ds.size_max (.target file) hqs htarget
  obtain ⟨d₂, hsession₂, hmode₂, hshown₂⟩ :=
    session_flat pagesize ds.size_max (.cow ds) hqs hcow
  cases d₁ with
  | cow _ => cases hmode₁
  | target file' =>
    cases d₂ with
    | target _ => cases hmode₂
    | cow ds' =>
      have houts : flatOuts (shown (.cow ds)) qs = flatOuts file qs :=
        flatOuts_congr (fun q hq => asked_le ds.size_max (hqs q hq)) fun x hx => (hsame x hx).symm
      rw [houts] at hsession₂
      refine ⟨file', ds', hsession₁, hsession₂, fun x hx => ⟨hshown₁ x hx, ?_⟩⟩
      have hcow := hshown₂ x hx
      have hfile := hshown₁ x hx
      simp only [shown] at hcow hfile
      rw [hcow, hfile]
      exact flatRun_congr (requests qs) (hsame x hx).symm

theorem writeRead_asked : ∀ q ∈ writeRead, Asked q.request := by
  intro q hq
  simp only [writeRead, List.mem_cons, List.not_mem_nil, or_false] at hq
  obtain rfl | rfl := hq
  · exact .inl (by decide)
  · exact .inl (by decide)

theorem writeRead_answerable : ∀ q ∈ writeRead, Answerable .target q.request := by
  intro q hq
  simp only [writeRead, List.mem_cons, List.not_mem_nil, or_false] at hq
  obtain rfl | rfl := hq
  · show 1 < 2 ^ 31
    decide
  · show 3 + 16 < 2 ^ 31
    decide

/-- A WRITE and a READ on the stack of one block and on a file with the same bytes. -/
theorem modes_agree_write_read :
    ∃ file' ds', session 4096 (.target oneBlock.logical) writeRead =
        some (.target file', flatOuts oneBlock.logical writeRead) ∧
      session 4096 (.cow oneBlock) writeRead =
        some (.cow ds', flatOuts oneBlock.logical writeRead) ∧
      ∀ x < 4096, file' x = flatRun oneBlock.logical (requests writeRead) x ∧
        ds'.logical x = file' x := by
  refine modes_agree 4096 oneBlock.logical oneBlock (fun _ _ => rfl) writeRead writeRead_asked
    writeRead_answerable ?_
  intro q hq
  simp only [writeRead, List.mem_cons, List.not_mem_nil, or_false] at hq
  obtain rfl | rfl := hq
  · exact And.intro (by decide) (by decide)
  · exact And.intro (by decide) (by decide)

end Xnbd.SessionDisk
