import Xv6.Bcache
import Xv6.Fs

/-!
# Calls on the Buffer Cache

`readi`, `writei`, `dirlookup` and `itrunc` of `fs.c`, and the functions that they call, as programs
over the operations of the buffer cache: a buffer is held from `bread` to `brelse`, as in the code.
The inode is locked by the process, so that its fields are passed from call to call.

`Keeps` says what such a program does with buffers and log. It keeps the busy discipline; it holds
at most so many buffers at once; a buffer that it marks as dirty is of a sector that it has
recorded in the log before, and it records nothing without having looked at the log.

## Main definitions

* `bmap`, `readi`, `writei`, `dirlookup`, `itrunc`: the code.
* `View`, `Keeps`: what a process knows, and what its program keeps.
* `Within`: a program that ends as it began, with a bound on the buffers held in between.

## Main results

* `Keeps.obeys`: the programs keep the busy discipline.
* `within_readi`, `within_writei`, `within_dirlookup`, `within_itrunc`: the calls hold **at most
  four buffers** at once.
* `within_commitTrans`: `commit_trans` holds two, and at its end no buffer is dirty.
-/

namespace Xv6.Bcache

/-! ### The code -/

/-- A locked inode: its number, and the fields copied from the disk. -/
structure Locked where
  inum : ℕ
  din : Dinode

section Programs

variable {n : ℕ}

/-- `readsb(dev, &sb)`. -/
def readsb : Code n Superblock := do
  let bp ← bread ROOTDEV 1
  let data ← load bp
  brelse bp
  return Superblock.ofBlock data

/-- `bzero(dev, bno)`. -/
def bzero (bno : ℕ) : Code n Unit := do
  let bp ← bread ROOTDEV bno
  store bp Block.zero
  logWrite bp
  brelse bp

/-- The loop of `balloc` over the bitmap blocks `ks`. -/
def ballocScan (sb : Superblock) : List ℕ → Code n ℕ
  | [] => panic
  | k :: ks => do
    let b := BPB * k
    let bp ← bread ROOTDEV (BBLOCK b sb.ninodes)
    let data ← load bp
    match findClear data (sb.size - b) with
    | some bi => do
      store bp (data.setBit bi)
      logWrite bp
      brelse bp
      bzero (b + bi)
      return b + bi
    | none => do
      brelse bp
      ballocScan sb ks

/-- `balloc(dev)`. -/
def balloc : Code n ℕ := do
  let sb ← readsb
  ballocScan sb (List.range ((sb.size + (BPB - 1)) / BPB))

/-- `bfree(dev, b)`. -/
def bfree (b : ℕ) : Code n Unit := do
  let sb ← readsb
  let bp ← bread ROOTDEV (BBLOCK b sb.ninodes)
  let data ← load bp
  if data.bit (b % BPB) then do
    store bp (data.clearBit (b % BPB))
    logWrite bp
    brelse bp
  else panic

/-- `iupdate(ip)`. -/
def iupdate (ip : Locked) : Code n Unit := do
  let bp ← bread ROOTDEV (IBLOCK ip.inum)
  let data ← load bp
  store bp (putDinode data (ip.inum % IPB) ip.din)
  logWrite bp
  brelse bp

/-- `if((addr = ip->addrs[k]) == 0) ip->addrs[k] = addr = balloc(ip->dev)`. -/
def inodePtr (ip : Locked) (k : ℕ) : Code n (ℕ × Locked) :=
  if ip.din.addr k = 0 then do
    let addr ← balloc
    return (addr, { ip with din := ip.din.setAddr k addr })
  else return (ip.din.addr k, ip)

/-- `if((addr = a[k]) == 0){ a[k] = addr = balloc(ip->dev); log_write(bp); }`, where `a` is the
data of the buffer `bp`. -/
def blockPtr (bp : Fin n) (k : ℕ) : Code n ℕ := do
  let a ← load bp
  if a.word k = 0 then do
    let addr ← balloc
    let a ← load bp
    store bp (a.setWord k addr)
    logWrite bp
    return addr
  else return a.word k

/-- `bmap(ip, bn)`. -/
def bmap (ip : Locked) (bn : ℕ) : Code n (ℕ × Locked) :=
  if bn < NDIRECT then inodePtr ip bn
  else
    let bn := bn - NDIRECT
    if bn < NINDIRECT then do
      let (addr, ip) ← inodePtr ip (NDIRECT + bn / PTRS_PER_BLOCK)
      let bp ← bread ROOTDEV addr
      let addr ← blockPtr bp (bn % PTRS_PER_BLOCK)
      brelse bp
      return (addr, ip)
    else
      let bn := bn - NINDIRECT
      if bn < NDOUBLE then do
        let (addr, ip) ← inodePtr ip (NDIRECT + NUM_INDIRECT)
        let bp ← bread ROOTDEV addr
        let addr ← blockPtr bp (bn % (PTRS_PER_BLOCK * PTRS_PER_BLOCK) / PTRS_PER_BLOCK)
        let sbp ← bread ROOTDEV addr
        let addr ← blockPtr sbp (bn % (PTRS_PER_BLOCK * PTRS_PER_BLOCK) % PTRS_PER_BLOCK)
        brelse bp
        brelse sbp
        return (addr, ip)
      else panic

/-- The first loop of `itrunc`, over the direct blocks `is`. -/
def itruncDirect (ip : Locked) : List ℕ → Code n Locked
  | [] => return ip
  | i :: is =>
    if ip.din.addr i ≠ 0 then do
      bfree (ip.din.addr i)
      itruncDirect { ip with din := ip.din.setAddr i 0 } is
    else itruncDirect ip is

/-- The second loop of `itrunc`, over the entries `js` of the indirect block in `bp`. What is past
the end of the buffer is not modelled: the run ends there. -/
def itruncIndirect (bp : Fin n) : List ℕ → Code n Unit
  | [] => return ()
  | j :: js => do
    let a ← load bp
    if PTRS_PER_BLOCK ≤ j then panic
    else if a.word j ≠ 0 then do
      bfree (a.word j)
      itruncIndirect bp js
    else itruncIndirect bp js

/-- `itrunc(ip)`. -/
def itrunc (ip : Locked) : Code n Locked := do
  let ip ← itruncDirect ip (List.range NDIRECT)
  if ip.din.addr NDIRECT ≠ 0 then do
    let bp ← bread ROOTDEV (ip.din.addr NDIRECT)
    itruncIndirect bp (List.range NINDIRECT)
    brelse bp
    bfree (ip.din.addr NDIRECT)
    let ip := { ip with din := { ip.din.setAddr NDIRECT 0 with size := 0 } }
    iupdate ip
    return ip
  else do
    let ip := { ip with din := { ip.din with size := 0 } }
    iupdate ip
    return ip

/-- The loop of `readi`, with `n` bytes to go; every round reads at least one. -/
def readiLoop : ℕ → Locked → ℕ → ℕ → Code n (List UInt8 × Locked)
  | 0, ip, _, _ => return ([], ip)
  | fuel + 1, ip, off, m =>
    if m = 0 then return ([], ip)
    else do
      let (addr, ip) ← bmap ip (off / BSIZE)
      let bp ← bread ROOTDEV addr
      let data ← load bp
      brelse bp
      let k := min m (BSIZE - off % BSIZE)
      let (rest, ip) ← readiLoop fuel ip (off + k) (m - k)
      return (data.slice (off % BSIZE) k ++ rest, ip)

/-- `readi(ip, dst, off, n)`: the bytes read, or `none` for `-1`. A device does not use
buffers. -/
def readi (ip : Locked) (off m : ℕ) : Code n (Option (List UInt8) × Locked) :=
  if ip.din.type = T_DEV then return (none, ip)
  else if ip.din.size < off ∨ (off + m) % 2 ^ 32 < off then return (none, ip)
  else do
    let m := if ip.din.size < (off + m) % 2 ^ 32 then ip.din.size - off else m
    let (bs, ip) ← readiLoop m ip off m
    return (some bs, ip)

/-- The loop of `writei`, with the bytes `src` to go. -/
def writeiLoop : ℕ → Locked → ℕ → List UInt8 → Code n Locked
  | 0, ip, _, _ => return ip
  | fuel + 1, ip, off, src =>
    if src = [] then return ip
    else do
      let (addr, ip) ← bmap ip (off / BSIZE)
      let bp ← bread ROOTDEV addr
      let data ← load bp
      let k := min src.length (BSIZE - off % BSIZE)
      store bp (data.blit (off % BSIZE) (src.take k))
      logWrite bp
      brelse bp
      writeiLoop fuel ip (off + k) (src.drop k)

/-- `writei(ip, src, off, n)`: the number of bytes written, or `none` for `-1`. -/
def writei (ip : Locked) (src : List UInt8) (off : ℕ) : Code n (Option ℕ × Locked) :=
  if ip.din.type = T_DEV then return (none, ip)
  else if ip.din.size < off ∨ (off + src.length) % 2 ^ 32 < off then return (none, ip)
  else if MAXFILE * BSIZE < (off + src.length) % 2 ^ 32 then return (none, ip)
  else do
    let ip ← writeiLoop src.length ip off src
    if 0 < src.length ∧ ip.din.size < off + src.length then do
      let ip := { ip with din := { ip.din with size := off + src.length } }
      iupdate ip
      return (some src.length, ip)
    else return (some src.length, ip)

/-- The loop of `dirlookup` over the entries `ks`: the offset and number of the first live entry
with this name. -/
def dirScan (name : List UInt8) : Locked → List ℕ → Code n (Option (ℕ × ℕ) × Locked)
  | dp, [] => return (none, dp)
  | dp, k :: ks => do
    let (r, dp) ← readi dp (DIRENT * k) DIRENT
    match r with
    | none => panic
    | some de =>
      if de.length ≠ DIRENT then panic
      else if direntInum de = 0 then dirScan name dp ks
      else if nameEq name (direntName de) then return (some (DIRENT * k, direntInum de), dp)
      else dirScan name dp ks

/-- `dirlookup(dp, name, poff)`, up to the `iget` of the inode found. -/
def dirlookup (dp : Locked) (name : List UInt8) : Code n (Option (ℕ × ℕ) × Locked) :=
  if dp.din.type ≠ T_DIR then panic
  else dirScan name dp (List.range (dirEntries dp.din.size))

end Programs

/-! ### What programs keep -/

/-- What a process knows while its program runs. -/
structure View (n : ℕ) where
  /-- it has seen nothing that cannot be, if there is only the device of the file system and nobody
  else uses the log during its transaction -/
  sane : Prop
  /-- the blocks of its buffers -/
  key : Fin n → ℕ × ℕ
  /-- the log as it has seen it -/
  log : Option Log
  /-- the sectors whose buffers may be dirty -/
  dirty : Set ℕ

namespace View

variable {n : ℕ}

def setKey (V : View n) (b : Fin n) (d : ℕ × ℕ) : View n :=
  { V with key := Function.update V.key b d }

theorem setKey_self (V : View n) (b : Fin n) (d : ℕ × ℕ) : (V.setKey b d).key b = d :=
  Function.update_self ..

theorem setKey_of_ne (V : View n) {a b : Fin n} (d : ℕ × ℕ) (h : a ≠ b) :
    (V.setKey b d).key a = V.key a := Function.update_of_ne h _ _

/-- The buffer has been written to its block. -/
def wrote (V : View n) (b : Fin n) : View n := { V with dirty := V.dirty \ {(V.key b).2} }

/-- The process has read the block of the buffer. -/
def sawKey (V : View n) (b : Fin n) (d : ℕ × ℕ) : View n :=
  { V.setKey b d with sane := V.sane ∧ d.1 = ROOTDEV }

/-- The process has read the log. -/
def sawLog (V : View n) (L : Log) : View n :=
  { V with
    sane := V.sane ∧ (∀ L₀, V.log = some L₀ → L = L₀) ∧ (∀ x ∈ V.dirty, x ∈ L.lh) ∧
      L.lh.length ≤ LOGSIZE ∧ L.busy = true
    log := some L }

/-- The process has changed the log, or ended its transaction. -/
def setLog (V : View n) (L : Log) : View n := { V with log := if L.busy then some L else none }

end View

section Programs

variable {n : ℕ}

/-- **What a program keeps** that holds the buffers `H` and has changed those in `U`, from what it
knows. It never holds more than `m` buffers, and none at its end; it writes buffers and changes the
log only during its transaction; what it marks as dirty is recorded in the log, and so is everything
that may be dirty. -/
def Keeps (m : ℕ) : View n → Finset (Fin n) → Finset (Fin n) → Code n Unit → Prop
  | _, H, _, .ret _ => H = ∅
  | V, H, U, .op (.bread dev sector) k =>
    H.card < m ∧ (V.sane → dev = ROOTDEV) ∧
      ∀ b : Fin n, b ∉ H → Keeps m (V.setKey b (dev, sector)) (insert b H) U (k b)
  | V, H, U, .op (.bwrite b) k =>
    b ∈ H ∧ (V.sane → V.log ≠ none) ∧ Keeps m (V.wrote b) H (U.erase b) (k ())
  | V, H, U, .op (.brelse b) k => b ∈ H ∧ b ∉ U ∧ Keeps m V (H.erase b) U (k ())
  | V, H, U, .op (.load b) k => b ∈ H ∧ ∀ v : Block, Keeps m V H U (k v)
  | V, H, U, .op (.store b _) k => b ∈ H ∧ Keeps m V H (insert b U) (k ())
  | V, H, U, .op (.key b) k => b ∈ H ∧ ∀ d : ℕ × ℕ, Keeps m (V.sawKey b d) H U (k d)
  | V, H, U, .op (.setDirty b) k =>
    b ∈ H ∧ (V.sane → ∃ L, V.log = some L ∧ (V.key b).2 ∈ L.lh) ∧
      Keeps m { V with dirty := insert (V.key b).2 V.dirty } H (U.erase b) (k ())
  | V, H, U, .op .getLog k => ∀ L : Log, Keeps m (V.sawLog L) H U (k L)
  | V, H, U, .op (.setLog L) k =>
    (V.sane → V.log ≠ none ∧ (∀ x ∈ V.dirty, x ∈ L.lh) ∧ L.lh.length ≤ LOGSIZE ∧
      (L.busy = false → L.lh = [])) ∧
      Keeps m (V.setLog L) H U (k ())
  | _, _, _, .op .panic _ => True

variable {m c : ℕ} {V : View n} {H U : Finset (Fin n)} {b : Fin n} {α β : Type}

/-- **They keep the busy discipline.** -/
theorem Keeps.obeys {p : Code n Unit} (h : Keeps m V H U p) : Obeys H U p := by
  induction p generalizing V H U with
  | ret _ => trivial
  | op o k ih =>
    cases o with
    | bread dev sector => exact fun b hb => ih b (h.2.2 b hb)
    | bwrite b | setDirty b => exact ⟨h.1, ih () h.2.2⟩
    | brelse b => exact ⟨h.1, h.2.1, ih () h.2.2⟩
    | load b => exact ⟨h.1, fun v => ih v (h.2 v)⟩
    | store b v => exact ⟨h.1, ih () h.2⟩
    | key b => exact ⟨h.1, fun d => ih d (h.2 d)⟩
    | getLog => exact fun L => ih L (h L)
    | setLog L => exact ih () h.2
    | panic => trivial

/-- A continuation that goes on in any case. -/
def Goes (m : ℕ) (H U : Finset (Fin n)) (k : α → Code n Unit) : Prop := ∀ a V, Keeps m V H U (k a)

/-- **A program that ends as it began**, with the buffer `b` among those it holds if there is one,
and holds at most `c` buffers more in between. -/
def Within (m c : ℕ) (b : Option (Fin n)) (f : Code n α) : Prop :=
  ∀ H U (k : α → Code n Unit), (∀ a, b = some a → a ∈ H ∧ a ∉ U) → U ⊆ H → H.card + c ≤ m →
    Goes m H U k → ∀ V, Keeps m V H U (f >>= k)

variable {o : Option (Fin n)} {f : Code n α}

theorem Within.mono {c' : ℕ} (h : Within m c o f) (hc : c ≤ c') : Within m c' o f :=
  fun H U k ho hU hm hk => h H U k ho hU (by omega) hk

theorem within_pure (a : α) : Within m c o (pure a : Code n α) :=
  fun _ _ _ _ _ _ hk => hk a

theorem within_panic : Within m c o (panic : Code n α) := fun _ _ _ _ _ _ _ _ => trivial

variable {g : α → Code n β} {k : Unit → Code n Unit}

/-- **One after the other.** -/
theorem Within.bind (hf : Within m c o f) (hg : ∀ a, Within m c o (g a)) :
    Within m c o (f >>= g) := fun H U k ho hU hm hk V => by
  rw [bind_assoc]
  exact hf H U _ ho hU hm (fun a V => hg a H U k ho hU hm hk V) V

theorem within_load : Within m c (some b) (load b) :=
  fun _ _ _ ho _ _ hk V => ⟨(ho b rfl).1, fun v => hk v V⟩

/-- What `log_write` makes of the log: nothing is lost, and the sector is there. -/
theorem recorded {L L' : Log} {x : ℕ} (hfull : ¬ L.isFull)
    (hL' : (if L.lh.idxOf x = L.lh.length then { L with lh := L.lh ++ [x] } else L) = L') :
    (∀ y ∈ L.lh, y ∈ L'.lh) ∧ x ∈ L'.lh ∧ L'.lh.length ≤ LOGSIZE ∧ L'.busy = L.busy := by
  simp only [Log.isFull, decide_eq_true_eq, not_or] at hfull
  subst hL'
  split_ifs with hi
  · refine ⟨fun y hy => List.mem_append_left _ hy, by simp, ?_, rfl⟩
    rw [List.length_append, List.length_singleton]
    omega
  · refine ⟨fun y hy => hy, List.idxOf_lt_length_iff.mp ?_, by omega, rfl⟩
    exact lt_of_le_of_ne List.idxOf_le_length hi

/-- The end of `log_write(b)`: the sector is recorded, and the buffer dirty. -/
theorem keeps_record {L₁ : Log} {x : ℕ} (hfull : ¬ L₁.isFull) (hlog : V.log = some L₁)
    (hkey : (V.key b).2 = x) (hb : b ∈ H) (hk : Goes m H (U.erase b) k) : Keeps m V H U ((do
      let L ← getLog
      setLog (if L₁.lh.idxOf x = L.lh.length then { L with lh := L.lh ++ [x] } else L)
      setDirty b) >>= k) := by
  intro L₂
  refine ⟨fun hV => ?_, hb, fun hV => ?_, hk () _⟩
  · obtain ⟨-, hsame, hdirty, -, hbusy⟩ := hV
    obtain rfl := hsame L₁ hlog
    obtain ⟨hsub, -, hlen, hb⟩ := recorded (x := x) hfull rfl
    exact ⟨Option.some_ne_none _, fun y hy => hsub y (hdirty y hy), hlen,
      fun hf => nomatch (hbusy.symm.trans hb.symm).trans hf⟩
  · obtain ⟨-, hsame, -, -, hbusy⟩ := hV
    obtain rfl := hsame L₁ hlog
    obtain ⟨-, hmem, -, hb⟩ := recorded (x := x) hfull rfl
    exact ⟨_, if_pos (hb.trans hbusy), hkey.symm ▸ hmem⟩

/-- `log_write(b)` of a buffer that has been changed. -/
theorem keeps_logWrite (hU : U ⊆ H) (hb : b ∈ H) (hm : H.card < m) (hk : Goes m H (U.erase b) k) :
    Keeps m V H U (logWrite b >>= k) := by
  intro L₁
  change Keeps _ _ _ _ ((if L₁.isFull then panic else if ¬ L₁.busy then panic else _) >>= k)
  split_ifs with hfull hbusy
  · trivial
  · refine ⟨hb, fun d => ⟨hm, fun hV => hV.2, fun a ha => ?_⟩⟩
    have haU : a ∉ U := fun h => ha (hU h)
    have hab : b ≠ a := fun h => ha (h ▸ hb)
    refine ⟨Finset.mem_insert_of_mem hb, fun v => ⟨Finset.mem_insert_self a H,
      Finset.mem_insert_self a H, fun _ => Option.some_ne_none _, Finset.mem_insert_self a H,
      Finset.notMem_erase a _, ?_⟩⟩
    rw [Finset.erase_insert ha, Finset.erase_insert haU]
    refine keeps_record hfull rfl ?_ hb hk
    exact congrArg Prod.snd ((View.setKey_of_ne _ _ hab).trans (View.setKey_self _ b d))
  · trivial

/-- Changing a buffer and `log_write`. -/
theorem within_storeLog {v : Block} :
    Within m 1 (some b) (do store b v; logWrite b) := fun H U k ho hU hm hk V => by
  obtain ⟨hb, hbU⟩ := ho b rfl
  have hsub : insert b U ⊆ H := Finset.insert_subset hb hU
  refine ⟨hb, keeps_logWrite hsub hb (by omega) ?_⟩
  rw [Finset.erase_insert hbU]
  exact hk

/-- **A program that is given the buffer `b`** and releases it, and holds at most `c` buffers more
in between. -/
def Ends (m c : ℕ) (o : Option (Fin n)) (b : Fin n) (f : Code n α) : Prop :=
  ∀ H U (k : α → Code n Unit), (∀ a, o = some a → a ∈ H ∧ a ∉ U) → b ∉ H → U ⊆ H →
    H.card + 1 + c ≤ m → Goes m H U k → ∀ V, Keeps m V (insert b H) U (f >>= k)

theorem ends_panic : Ends m c o b (panic : Code n α) :=
  fun _ _ _ _ _ _ _ _ _ => trivial

theorem ends_brelse : Ends m c o b (brelse b) := fun H U k _ hb hU _ hk V => by
  refine ⟨Finset.mem_insert_self b H, fun h => hb (hU h), ?_⟩
  rw [Finset.erase_insert hb]
  exact hk () V

/-- Working with the buffer before it is released. -/
theorem Within.andEnds (hf : Within m c (some b) f) (hg : ∀ a, Ends m c o b (g a)) :
    Ends m c o b (f >>= g) :=
  fun H U k ho hb hU hm hk V => by
    have hcard := Finset.card_insert_of_notMem hb
    rw [bind_assoc]
    refine hf (insert b H) U _ (fun a ha => ?_) (hU.trans (Finset.subset_insert b H)) (by omega)
      (fun a V => hg a H U k ho hb hU hm hk V) V
    cases ha
    exact ⟨Finset.mem_insert_self _ H, fun h => hb (hU h)⟩

/-- Going on after the buffer has been released. -/
theorem Ends.andThen (hf : Ends m c o b f) (hg : ∀ a, Within m (c + 1) o (g a)) :
    Ends m c o b (f >>= g) :=
  fun H U k ho hb hU hm hk V => by
    rw [bind_assoc]
    exact hf H U _ ho hb hU hm (fun a V => hg a H U k ho hU (by omega) hk V) V

/-- **Holding a buffer**, from `bread` to `brelse`. -/
theorem within_bread {sector : ℕ} {g : Fin n → Code n α} (hg : ∀ b, Ends m c o b (g b)) :
    Within m (c + 1) o (bread ROOTDEV sector >>= g) := fun H U k ho hU hm hk V =>
  ⟨by omega, fun _ => rfl, fun b hb => hg b H U k ho hb hU (by omega) hk _⟩

/-- Changing the buffer and `log_write`, before something else. -/
theorem Within.storeLog {v : Block} (hf : Within m c (some b) f) (hc : 1 ≤ c) :
    Within m c (some b) (do
      store b v
      logWrite b
      f) := by
  have h := (within_storeLog (v := v)).mono hc |>.bind fun _ => hf
  simpa only [bind_assoc] using h

/-- Changing the buffer and `log_write`, before the buffer is released. -/
theorem Ends.storeLog {v : Block} (hf : Ends m c o b f) (hc : 1 ≤ c) :
    Ends m c o b (do
      store b v
      logWrite b
      f) := by
  have h := (within_storeLog (v := v)).mono hc |>.andEnds fun _ => hf
  simpa only [bind_assoc] using h

/-- Both branches keep within the bound. -/
theorem within_ite {P : Prop} [Decidable P] {g : Code n α} (hf : P → Within m c o f)
    (hg : ¬ P → Within m c o g) : Within m c o (if P then f else g) := by
  split_ifs with h
  · exact hf h
  · exact hg h

/-! ### The calls -/

theorem within_readsb : Within m 1 o (readsb : Code n Superblock) :=
  within_bread fun _ => within_load.andEnds fun _ => ends_brelse.andThen fun _ => within_pure _

theorem within_bzero (bno : ℕ) : Within m 2 o (bzero bno : Code n Unit) :=
  within_bread fun _ => ends_brelse.storeLog le_rfl

/-- `balloc` holds one block at a time, and `log_write` one more. -/
theorem within_ballocScan (sb : Superblock) (ks : List ℕ) :
    Within m 2 o (ballocScan sb ks : Code n ℕ) := by
  induction ks with
  | nil => exact within_panic
  | cons k ks ih =>
    refine within_bread fun bp => within_load.andEnds fun data => ?_
    cases findClear data (sb.size - BPB * k) with
    | some bi =>
      exact (ends_brelse.andThen fun _ => (within_bzero _).bind fun _ => within_pure _).storeLog
        le_rfl
    | none => exact ends_brelse.andThen fun _ => ih

theorem within_balloc : Within m 2 o (balloc : Code n ℕ) :=
  (within_readsb.mono one_le_two).bind fun _ => within_ballocScan _ _

/-- `bfree` holds a bitmap block, and `log_write` one more. -/
theorem within_bfree (bno : ℕ) : Within m 2 o (bfree bno : Code n Unit) := by
  refine (within_readsb.mono one_le_two).bind fun sb =>
    within_bread fun bp => within_load.andEnds fun data => ?_
  split_ifs
  · exact ends_brelse.storeLog le_rfl
  · exact ends_panic

theorem within_iupdate (ip : Locked) : Within m 2 o (iupdate ip : Code n Unit) :=
  within_bread fun _ => within_load.andEnds fun _ => ends_brelse.storeLog le_rfl

theorem within_inodePtr (ip : Locked) (k : ℕ) :
    Within m 2 o (inodePtr ip k : Code n (ℕ × Locked)) :=
  within_ite (fun _ => within_balloc.bind fun _ => within_pure _) fun _ => within_pure _

/-- An entry of a block that is held, with calls of `balloc` and `log_write`. -/
theorem within_blockPtr (k : ℕ) : Within m 2 (some b) (blockPtr b k) :=
  within_load.bind fun _ => within_ite
    (fun _ => within_balloc.bind fun _ => within_load.bind fun _ =>
      (within_pure _).storeLog one_le_two)
    fun _ => within_pure _

/-- The doubly-indirect case of `bmap`, which holds two buffers. -/
theorem ends_double {addr k : ℕ} {ip : Locked} : Ends m 3 o b (do
      let sbp ← bread ROOTDEV addr
      let addr ← blockPtr sbp k
      brelse b
      brelse sbp
      return (addr, ip)) := fun H U k _ hb hU hm hk V => by
  have hcard := Finset.card_insert_of_notMem hb
  refine ⟨by omega, fun _ => rfl, fun a ha => ?_⟩
  have hcard' := Finset.card_insert_of_notMem ha
  have hab : a ≠ b := fun h => ha (h ▸ Finset.mem_insert_self b H)
  have haH : a ∉ H := fun h => ha (Finset.mem_insert_of_mem h)
  have herase : (insert a (insert b H)).erase b = insert a H := by
    rw [Finset.erase_insert_of_ne hab, Finset.erase_insert hb]
  change Keeps _ _ _ _ ((blockPtr a _ >>= _) >>= k)
  rw [bind_assoc]
  refine within_blockPtr _ (insert a (insert b H)) U _ (fun x hx => ?_) (fun x hx => ?_) (by omega)
    (fun addr V => ?_) _
  · cases hx
    exact ⟨Finset.mem_insert_self _ _, fun h => haH (hU h)⟩
  · exact Finset.mem_insert_of_mem (Finset.mem_insert_of_mem (hU hx))
  · refine ⟨Finset.mem_insert_of_mem (Finset.mem_insert_self b H), fun h => hb (hU h), ?_⟩
    rw [herase]
    refine ⟨Finset.mem_insert_self a H, fun h => haH (hU h), ?_⟩
    rw [Finset.erase_insert haH]
    exact hk _ V

/-- `bmap` holds at most two indirect blocks while it calls `balloc`. -/
theorem within_bmap (ip : Locked) (bn : ℕ) : Within m 4 o (bmap ip bn : Code n (ℕ × Locked)) := by
  have hptr (k : ℕ) : Within m 4 o (inodePtr ip k : Code n (ℕ × Locked)) :=
    (within_inodePtr ip k).mono (by omega)
  rw [bmap]
  by_cases hd : bn < NDIRECT
  · rw [if_pos hd]
    exact hptr bn
  rw [if_neg hd]
  dsimp only
  by_cases hi : bn - NDIRECT < NINDIRECT
  · rw [if_pos hi]
    refine (hptr _).bind fun r => within_bread fun bp => ?_
    exact ((within_blockPtr _).mono (by omega)).andEnds fun _ =>
      ends_brelse.andThen fun _ => within_pure _
  rw [if_neg hi]
  obtain hd₂ | hd₂ := Nat.lt_or_ge (bn - NDIRECT - NINDIRECT) NDOUBLE
  · rw [if_pos hd₂]
    refine (hptr _).bind fun r => within_bread fun bp => ?_
    exact ((within_blockPtr _).mono (by omega)).andEnds fun _ => ends_double
  · rw [if_neg (Nat.not_lt.mpr hd₂)]
    exact within_panic

/-- `itrunc` frees the direct blocks one by one. -/
theorem within_itruncDirect (ip : Locked) (is : List ℕ) :
    Within m 2 o (itruncDirect ip is : Code n Locked) := by
  induction is generalizing ip with
  | nil => exact within_pure _
  | cons i is ih => exact within_ite (fun _ => (within_bfree _).bind fun _ => ih _) fun _ => ih ip

/-- `itrunc` frees the blocks of an indirect block that it holds. -/
theorem within_itruncIndirect (js : List ℕ) : Within m 2 (some b) (itruncIndirect b js) := by
  induction js with
  | nil => exact within_pure _
  | cons j js ih =>
    exact within_load.bind fun _ => within_ite (fun _ => within_panic) fun _ =>
      within_ite (fun _ => (within_bfree _).bind fun _ => ih) fun _ => ih

/-- `itrunc` holds an indirect block while it calls `bfree`. -/
theorem within_itrunc (ip : Locked) : Within m 4 o (itrunc ip : Code n Locked) := by
  have hupdate (ip : Locked) : Within m 4 o (iupdate ip : Code n Unit) :=
    (within_iupdate ip).mono (by omega)
  refine ((within_itruncDirect ip _).mono (by omega)).bind fun ip => within_ite (fun _ => ?_)
    fun _ => (hupdate _).bind fun _ => within_pure _
  refine within_bread fun bp => ((within_itruncIndirect _).mono (by omega)).andEnds fun _ =>
    ends_brelse.andThen fun _ => ?_
  exact ((within_bfree _).mono (by omega)).bind fun _ => (hupdate _).bind fun _ => within_pure _

/-- `readi` holds a data block or is in `bmap`. -/
theorem within_readiLoop (fuel : ℕ) (ip : Locked) (off l : ℕ) :
    Within m 4 o (readiLoop fuel ip off l : Code n (List UInt8 × Locked)) := by
  induction fuel generalizing ip off l with
  | zero => exact within_pure _
  | succ fuel ih =>
    refine within_ite (fun _ => within_pure _) fun _ => (within_bmap ip _).bind fun r =>
      within_bread fun bp => within_load.andEnds fun data => ends_brelse.andThen fun _ => ?_
    exact (ih _ _ _).bind fun _ => within_pure _

theorem within_readi (ip : Locked) (off l : ℕ) :
    Within m 4 o (readi ip off l : Code n (Option (List UInt8) × Locked)) :=
  within_ite (fun _ => within_pure _) fun _ => within_ite (fun _ => within_pure _) fun _ =>
    (within_readiLoop _ ip off _).bind fun _ => within_pure _

/-- `writei` holds a data block or is in `bmap`. -/
theorem within_writeiLoop (fuel : ℕ) (ip : Locked) (off : ℕ) (src : List UInt8) :
    Within m 4 o (writeiLoop fuel ip off src : Code n Locked) := by
  induction fuel generalizing ip off src with
  | zero => exact within_pure _
  | succ fuel ih =>
    refine within_ite (fun _ => within_pure _) fun _ => (within_bmap ip _).bind fun r =>
      within_bread fun bp => within_load.andEnds fun data => ?_
    exact (ends_brelse.andThen fun _ => ih _ _ _).storeLog (by omega)

/-- `writei`, with the update of the inode. -/
theorem within_writei (ip : Locked) (src : List UInt8) (off : ℕ) :
    Within m 4 o (writei ip src off : Code n (Option ℕ × Locked)) := by
  refine within_ite (fun _ => within_pure _) fun _ => within_ite (fun _ => within_pure _) fun _ =>
    within_ite (fun _ => within_pure _) fun _ => (within_writeiLoop _ ip off src).bind fun ip => ?_
  exact within_ite (fun _ => ((within_iupdate _).mono (by omega)).bind fun _ => within_pure _)
    fun _ => within_pure _

/-- A scan of a directory is a sequence of calls of `readi`. -/
theorem within_dirScan (name : List UInt8) (dp : Locked) (ks : List ℕ) :
    Within m 4 o (dirScan name dp ks : Code n (Option (ℕ × ℕ) × Locked)) := by
  induction ks generalizing dp with
  | nil => exact within_pure _
  | cons k ks ih =>
    refine (within_readi dp _ _).bind fun r => ?_
    obtain ⟨r, dp⟩ := r
    cases r with
    | none => exact within_panic
    | some de =>
      exact within_ite (fun _ => within_panic) fun _ => within_ite (fun _ => ih dp) fun _ =>
        within_ite (fun _ => within_pure _) fun _ => ih dp

theorem within_dirlookup (dp : Locked) (name : List UInt8) :
    Within m 4 o (dirlookup dp name : Code n (Option (ℕ × ℕ) × Locked)) :=
  within_ite (fun _ => within_panic) fun _ => within_dirScan name dp _

/-! ### The end of a transaction -/

/-- `write_head()`, inside a transaction. -/
theorem keeps_writeHead (hU : U ⊆ H) (hm : H.card < m)
    (hk : ∀ V' : View n, (V'.sane → V.sane ∧ (∀ L, V.log = some L → V'.log = some L) ∧
      V'.dirty ⊆ V.dirty) → Keeps m V' H U (k ())) : Keeps m V H U (writeHead >>= k) := by
  intro L
  refine ⟨hm, fun _ => rfl, fun a ha => ?_⟩
  have haU : a ∉ U := fun h => ha (hU h)
  refine ⟨Finset.mem_insert_self a H, fun v => ⟨Finset.mem_insert_self a H,
    Finset.mem_insert_self a H, fun _ => Option.some_ne_none _, Finset.mem_insert_self a H,
    Finset.notMem_erase a _, ?_⟩⟩
  rw [Finset.erase_insert ha, Finset.erase_insert haU]
  refine hk _ fun hV => ⟨hV.1, fun L₀ hL₀ => ?_, Set.sdiff_subset⟩
  obtain rfl := hV.2.1 L₀ hL₀
  rfl

/-- **`install_trans()` writes every dirty buffer**: the loop from entry `tail` on, when only the
sectors from there on may be dirty. -/
theorem keeps_installLoop {L : Log} (fuel tail : ℕ) (hU : U ⊆ H) (hm : H.card + 2 ≤ m)
    (hV : V.sane → V.log = some L ∧ L.lh.length ≤ tail + fuel ∧ ∀ x ∈ V.dirty, x ∈ L.lh.drop tail)
    (hk : ∀ V' : View n, (V'.sane → V.sane ∧ V'.dirty = ∅) → Keeps m V' H U (k ())) :
    Keeps m V H U (installLoop fuel tail >>= k) := by
  -- past the end of the log nothing is dirty
  have hdone {V : View n} (tail : ℕ) (hd : ∀ x ∈ V.dirty, x ∈ L.lh.drop tail)
      (hlen : L.lh.length ≤ tail) : V.dirty = ∅ := by
    rw [List.drop_eq_nil_of_le hlen] at hd
    exact Set.eq_empty_of_forall_notMem fun x hx => List.not_mem_nil (hd x hx)
  induction fuel generalizing tail V with
  | zero => exact hk V fun hs => ⟨hs, hdone tail (hV hs).2.2 (hV hs).2.1⟩
  | succ fuel ih =>
    intro L'
    change Keeps _ _ _ _ ((if tail < L'.lh.length then _ else pure ()) >>= k)
    split_ifs with htail
    · refine ⟨by omega, fun _ => rfl, fun a ha => ?_⟩
      have hcard := Finset.card_insert_of_notMem ha
      refine ⟨by omega, fun _ => rfl, fun c hc => ?_⟩
      have hcU : c ∉ U := fun h => hc (Finset.mem_insert_of_mem (hU h))
      have haU : a ∉ U := fun h => ha (hU h)
      have hac : a ≠ c := fun h => hc (by rw [h]; exact Finset.mem_insert_self c _)
      have hmem : a ∈ insert c (insert a H) := Finset.mem_insert_of_mem (Finset.mem_insert_self a H)
      refine ⟨hmem, fun v => ⟨Finset.mem_insert_self c _, Finset.mem_insert_self c _,
        fun _ => Option.some_ne_none _, hmem, ?_, ?_, ?_, ?_⟩⟩
      · rwa [Finset.erase_insert hcU]
      · exact Finset.mem_erase.mpr ⟨hac.symm, Finset.mem_insert_self c _⟩
      · exact Finset.notMem_erase c _
      · rw [Finset.erase_insert hcU, Finset.erase_right_comm, Finset.erase_insert hc,
          Finset.erase_insert ha]
        refine ih (tail + 1) (fun hs => ?_) fun V' h => hk V' fun hs => ?_
        · obtain ⟨hs, hsame, -⟩ := hs
          obtain ⟨hlog, hlen, hd⟩ := hV hs
          obtain rfl := hsame L hlog
          refine ⟨rfl, by omega, fun x hx => ?_⟩
          have hx' := hd x hx.1
          rw [List.drop_eq_getElem_cons htail] at hx'
          refine (List.mem_cons.mp hx').resolve_left fun he => hx.2 ?_
          have hget : x = L'.lh.getD tail 0 := he.trans (List.getD_eq_getElem L'.lh 0 htail).symm
          rw [View.setKey_self]
          exact hget
        · exact ⟨(h hs).1.1, (h hs).2⟩
    · refine hk _ fun hs => ?_
      obtain ⟨hs, hsame, -⟩ := hs
      obtain ⟨hlog, -, hd⟩ := hV hs
      obtain rfl := hsame L hlog
      exact ⟨hs, hdone tail hd (by omega)⟩

/-- **`commit_trans()`**: at its end no buffer is dirty. -/
theorem within_commitTrans : Within m 2 o (commitTrans : Code n Unit) := by
  intro H U k _ hU hm hk V L₁
  change Keeps _ _ _ _ ((if 0 < L₁.lh.length then _ else _) >>= k)
  split_ifs with hpos
  · simp only [bind_assoc]
    refine keeps_writeHead hU (by omega) fun V₂ h₂ =>
      keeps_installLoop (L := L₁) LOGSIZE 0 hU hm (fun hs => ?_) fun V₃ h₃ L₃ => ⟨fun hs => ?_, ?_⟩
    · obtain ⟨hs₁, hlog, hsub⟩ := h₂ hs
      obtain ⟨-, -, hd, hlen, -⟩ := hs₁
      exact ⟨hlog L₁ rfl, by omega, fun x hx => hd x (hsub hx)⟩
    · obtain ⟨hs₃, -⟩ := hs
      refine ⟨Option.some_ne_none _, fun x hx => ?_, Nat.zero_le _, fun _ => rfl⟩
      exact absurd hx ((h₃ hs₃).2 ▸ Set.notMem_empty x)
    · refine keeps_writeHead hU (by omega) fun V₅ h₅ L₆ => ⟨fun hs => ?_, hk () _⟩
      obtain ⟨hs₅, hsame, hd, hlen, -⟩ := hs
      obtain ⟨⟨-, -, -, -, hbusy⟩, hlog, -⟩ := h₅ hs₅
      obtain rfl := hsame _ (hlog _ (if_pos hbusy))
      exact ⟨Option.some_ne_none _, hd, hlen, fun _ => rfl⟩
  · refine fun L₂ => ⟨fun hs => ?_, hk () _⟩
    obtain ⟨-, hsame, hd, hlen, -⟩ := hs
    obtain rfl := hsame L₁ rfl
    have hnil : L₂.lh = [] := List.length_eq_zero_iff.mp (by omega)
    exact ⟨Option.some_ne_none _, hd, hlen, fun _ => hnil⟩

end Programs

end Xv6.Bcache
