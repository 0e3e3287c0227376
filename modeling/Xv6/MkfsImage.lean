import Xv6.FileTree
import Xv6.Mkfs

/-!
# The Trees That the Image Builder Makes

What holds of the image while `mkfs` appends to its inodes: the blocks that inodes refer to are
fresh ones, each referred to once, and the blocks of an inode hold its contents. This is so for
the first `NDIRECT + PTRS_PER_BLOCK` blocks of an inode. From there on `iappend` uses elements
of its array that are not initialised and that it does not write back; when they happen to be
zero it puts the data into blocks that nothing refers to.

## Main results

* `Img.alloc`, `Img.write`: the two kinds of changes that a round of `iappend` makes.
* `Img.iappend`: **`iappend` appends.**
* `built_of_build`: the image before the bitmap is written, for every list of files.
-/

open Function (update update_apply update_eq_self update_idem update_of_ne update_self)

namespace Xv6

namespace Mkfs

/-! ### Results of computations that can fail -/

section Except

variable {ε α β σ : Type}

/-- What returns has returned from both parts. -/
theorem bind_eq_ok {x : Except ε α} {f : α → Except ε β} {r : β} :
    (x >>= f) = .ok r ↔ ∃ a, x = .ok a ∧ f a = .ok r := by
  constructor
  · intro h
    cases x with
    | ok a => exact ⟨a, rfl, h⟩
    | error e => cases h
  · rintro ⟨a, rfl, h⟩
    exact h

/-- **The invariant rule for `foldlM`**, with the elements seen so far. -/
theorem foldlM_ok {f : σ → β → Except ε σ} {P : List β → σ → Prop} {l : List β} {s t : σ}
    (hstep : ∀ pre x post s s', l = pre ++ x :: post → P pre s → f s x = .ok s' →
      P (pre ++ [x]) s')
    (hrun : l.foldlM f s = .ok t) (h : P [] s) : P l t := by
  suffices ∀ post pre s, l = pre ++ post → P pre s → post.foldlM f s = .ok t → P l t from
    this l [] s rfl h hrun
  intro post
  induction post with
  | nil =>
    rintro pre s rfl h hrun
    cases hrun
    rwa [List.append_nil]
  | cons x post ih =>
    intro pre s hl h hrun
    rw [List.foldlM_cons, bind_eq_ok] at hrun
    obtain ⟨s', h1, h2⟩ := hrun
    exact ih (pre ++ [x]) s' (by rw [hl, List.append_assoc]; rfl) (hstep pre x post s s' hl h h1) h2

end Except

/-! ### Blocks of an inode -/

section Roles

variable {d : Disk} {a : Dinode} {bn : ℕ}

/-- The blocks of an inode that `iappend` keeps track of: data blocks, and the indirect block
(`none`). -/
def RoleOk : Option ℕ → Prop
  | none => True
  | some bn => bn < 138

theorem roleOk_some (h : bn < 138) : RoleOk (some bn) := h

/-- The block in a role, or zero. -/
def blk (d : Disk) (a : Dinode) : Option ℕ → ℕ
  | none => a.addr 10
  | some bn => dataPtr d a bn

theorem blk_direct (h : bn < 10) : blk d a (some bn) = a.addr bn := by
  simp [blk, dataPtr, pathOf, h, tree]

/-- A block past the tenth is an entry of the indirect block. -/
theorem blk_indirect (h : 10 ≤ bn) (h' : bn < 138) :
    blk d a (some bn) = if a.addr 10 = 0 then 0 else (d (a.addr 10)).word (bn - 10) := by
  have hpath : pathOf bn = (10, [bn - 10]) := by
    rcases pathOf_cases (show bn < MAXFILE by rw [maxfile_eq]; omega) with
      ⟨hlt, -⟩ | ⟨k, j, hk, hj, hbn, heq⟩ | ⟨i, j, -, -, hbn, -⟩
    · omega
    · obtain rfl : k = 0 := by omega
      rw [heq, show bn - 10 = j by omega]
    · omega
  rw [blk, dataPtr, hpath]
  rfl

/-- The pointers of an inode are its own and those in its indirect block. -/
theorem blk_congr {d' : Disk} {q : Option ℕ} (hq : RoleOk q)
    (h : a.addr 10 ≠ 0 → d' (a.addr 10) = d (a.addr 10)) : blk d' a q = blk d a q := by
  cases q with
  | none => rfl
  | some bn =>
    have hbn : bn < 138 := hq
    by_cases hlt : bn < 10
    · rw [blk_direct hlt, blk_direct hlt]
    · rw [blk_indirect (by omega) hbn, blk_indirect (by omega) hbn]
      split_ifs with h0
      · rfl
      · rw [h h0]

theorem tree_setSize (k r : ℕ) (js : List ℕ) : tree d (a.setSize k) r js = tree d a r js := by
  induction js with
  | nil => rfl
  | cons j js ih => rw [tree, tree, ih]

theorem blk_setSize (k : ℕ) (q : Option ℕ) : blk d (a.setSize k) q = blk d a q := by
  cases q with
  | none => rfl
  | some bn => exact tree_setSize k _ _

/-- Setting the pointer of a direct block. -/
theorem blk_setAddr {r F bn : ℕ} (hr : r < 10) (hbn : bn < 138) :
    blk d (a.setAddr r F) (some bn) = if bn = r then F else blk d a (some bn) := by
  have haddr : ∀ k, (a.setAddr r F).addr k = if k = r then F else a.addr k :=
    fun k => Dinode.addr_setAddr _ (by omega)
  by_cases hlt : bn < 10
  · rw [blk_direct hlt, blk_direct hlt, haddr]
  · rw [blk_indirect (not_lt.mp hlt) hbn, blk_indirect (not_lt.mp hlt) hbn, haddr,
      if_neg (show 10 ≠ r by omega), if_neg (show bn ≠ r by omega)]

/-- A new indirect block has no pointers. -/
theorem blk_setIndirect {F bn : ℕ} (h0 : a.addr 10 = 0) (hF : ∀ k, (d F).word k = 0)
    (hbn : bn < 138) : blk d (a.setAddr 10 F) (some bn) = blk d a (some bn) := by
  have haddr : ∀ k, (a.setAddr 10 F).addr k = if k = 10 then F else a.addr k :=
    fun k => Dinode.addr_setAddr _ (by omega)
  by_cases hlt : bn < 10
  · rw [blk_direct hlt, blk_direct hlt, haddr, if_neg (by omega)]
  · rw [blk_indirect (not_lt.mp hlt) hbn, blk_indirect (not_lt.mp hlt) hbn, haddr, if_pos rfl,
      hF, if_pos h0, ite_self]

/-- Setting an entry of the indirect block. -/
theorem blk_setWord {k F b bn : ℕ} (hk : k < 128) (hF : F < 2 ^ 32) (hb : a.addr 10 = b)
    (hb0 : b ≠ 0) (hbn : bn < 138) :
    blk (update d b ((d b).setWord k F)) a (some bn) =
      if bn = 10 + k then F else blk d a (some bn) := by
  by_cases hlt : bn < 10
  · rw [blk_direct hlt, blk_direct hlt, if_neg (by omega)]
  · rw [blk_indirect (not_lt.mp hlt) hbn, blk_indirect (not_lt.mp hlt) hbn, hb, if_neg hb0,
      if_neg hb0, update_self, Block.word_setWord _ hk hF]
    exact if_congr (by omega) rfl rfl

end Roles

/-! ### The invariant -/

/-- The image with `n` inodes `D`, the free blocks being those from `F` on: inode `i` has the
contents `c i`. -/
structure Img (n F : ℕ) (d : Disk) (D : ℕ → Dinode) (c : ℕ → List UInt8) : Prop where
  base : 35 ≤ F
  fresh : ∀ b, F ≤ b → d b = Block.zero
  type : ∀ i, 2 ≤ i → i < n → (D i).type = T_FILE
  size : ∀ i < n, (D i).size = (c i).length
  le : ∀ i < n, (c i).length ≤ MAXFILE * 512
  top : ∀ i < n, ∀ r, 11 ≤ r → (D i).addr r = 0
  range : ∀ i < n, ∀ q, RoleOk q → blk d (D i) q ≠ 0 → 35 ≤ blk d (D i) q ∧ blk d (D i) q < F
  inj : ∀ i < n, ∀ j < n, ∀ q q', RoleOk q → RoleOk q' → blk d (D i) q ≠ 0 →
    blk d (D i) q = blk d (D j) q' → i = j ∧ q = q'
  mapped : ∀ i < n, ∀ bn < 138, bn * 512 < (c i).length → blk d (D i) (some bn) ≠ 0
  bytes : ∀ i < n, ∀ k < (c i).length, k < 138 * 512 →
    (d (blk d (D i) (some (k / 512)))).byte (k % 512) = (c i).getD k 0

namespace Img

variable {n F : ℕ} {d d' : Disk} {D D' : ℕ → Dinode} {c : ℕ → List UInt8}

/-- Only the inodes in use matter. -/
theorem congr (h : Img n F d D c) (hD : ∀ i < n, D' i = D i) : Img n F d D' c where
  base := h.base
  fresh := h.fresh
  type i h2 hi := by rw [hD i hi]; exact h.type i h2 hi
  size i hi := by rw [hD i hi]; exact h.size i hi
  le := h.le
  top i hi := by rw [hD i hi]; exact h.top i hi
  range i hi := by rw [hD i hi]; exact h.range i hi
  inj i hi j hj := by rw [hD i hi, hD j hj]; exact h.inj i hi j hj
  mapped i hi := by rw [hD i hi]; exact h.mapped i hi
  bytes i hi := by rw [hD i hi]; exact h.bytes i hi

/-- The first free block is not referred to. -/
theorem ne_free (h : Img n F d D c) {i : ℕ} (hi : i < n) {q : Option ℕ} (hq : RoleOk q) :
    blk d (D i) q ≠ F := by
  intro he
  have := h.base
  have := (h.range i hi q hq (by omega)).2
  omega

/-- **One unset pointer of inode `i₀` becomes the first free block.** -/
theorem alloc {i₀ : ℕ} {a : Dinode} (q₀ : Option ℕ) (h : Img n F d D c) (hi₀ : i₀ < n)
    (hfresh : ∀ b, F + 1 ≤ b → d' b = Block.zero) (htype : a.type = (D i₀).type)
    (hsize : a.size = (D i₀).size) (htop : ∀ r, 11 ≤ r → a.addr r = (D i₀).addr r)
    (hself : ∀ q, RoleOk q → blk d' a q = if q = q₀ then F else blk d (D i₀) q)
    (hother : ∀ i < n, i ≠ i₀ → ∀ q, RoleOk q → blk d' (D i) q = blk d (D i) q)
    (hdata : ∀ i < n, ∀ bn < 138, blk d (D i) (some bn) ≠ 0 →
      d' (blk d (D i) (some bn)) = d (blk d (D i) (some bn)))
    (hq₀ : blk d (D i₀) q₀ = 0) : Img n (F + 1) d' (update D i₀ a) c := by
  have hF := h.base
  have hkeep : ∀ i, (update D i₀ a i).type = (D i).type ∧ (update D i₀ a i).size = (D i).size ∧
      ∀ r, 11 ≤ r → (update D i₀ a i).addr r = (D i).addr r := by
    intro i
    rw [update_apply]
    split_ifs with hii
    · exact hii ▸ ⟨htype, hsize, htop⟩
    · exact ⟨rfl, rfl, fun _ _ => rfl⟩
  have hblk : ∀ i < n, ∀ q, RoleOk q → blk d' (update D i₀ a i) q =
      if i = i₀ ∧ q = q₀ then F else blk d (D i) q := by
    intro i hi q hq
    by_cases hii : i = i₀
    · subst hii
      rw [update_self, hself q hq]
      simp
    · rw [update_of_ne hii, hother i hi hii q hq, if_neg fun hc => hii hc.1]
  refine ⟨by omega, hfresh, fun i h2 hi => (hkeep i).1.trans (h.type i h2 hi),
    fun i hi => (hkeep i).2.1.trans (h.size i hi), h.le,
    fun i hi r hr => ((hkeep i).2.2 r hr).trans (h.top i hi r hr), ?_, ?_, ?_, ?_⟩
  · intro i hi q hq h0
    rw [hblk i hi q hq] at h0 ⊢
    split_ifs at h0 ⊢
    · omega
    · have := h.range i hi q hq h0
      omega
  · intro i hi j hj q q' hq hq' h0 he
    rw [hblk i hi q hq] at h0 he
    rw [hblk j hj q' hq'] at he
    split_ifs at h0 he with h1 h2 h2
    · exact ⟨h1.1.trans h2.1.symm, h1.2.trans h2.2.symm⟩
    · exact absurd he.symm (h.ne_free hj hq')
    · exact absurd he (h.ne_free hi hq)
    · exact h.inj i hi j hj q q' hq hq' h0 he
  · intro i hi bn hbn hlt
    rw [hblk i hi _ (roleOk_some hbn)]
    split_ifs
    · omega
    · exact h.mapped i hi bn hbn hlt
  · intro i hi k hk hlt
    have hm := h.mapped i hi (k / 512) (by omega) (by omega)
    rw [hblk i hi _ (roleOk_some (by omega)), if_neg, hdata i hi _ (by omega) hm]
    · exact h.bytes i hi k hk hlt
    · rintro ⟨rfl, rfl⟩
      exact hm hq₀

/-- The first free block as a direct block (`r < 10`) or as the indirect block of inode `i₀`. -/
theorem setAddr {i₀ r : ℕ} (h : Img n F d D c) (hi₀ : i₀ < n) (hr : r ≤ 10)
    (h0 : (D i₀).addr r = 0) :
    Img n (F + 1) d (update D i₀ ((D i₀).setAddr r F)) c := by
  have haddr : ∀ k, ((D i₀).setAddr r F).addr k = if k = r then F else (D i₀).addr k :=
    fun k => Dinode.addr_setAddr _ (by omega)
  have hzero : ∀ k, (d F).word k = 0 := fun k => by rw [h.fresh F le_rfl, Block.word_zero]
  refine h.alloc (if r = 10 then none else some r) hi₀ (fun b hb => h.fresh b (by omega))
    rfl rfl (fun k hk => by rw [haddr, if_neg (by omega)]) ?_ (fun _ _ _ _ _ => rfl)
    (fun _ _ _ _ _ => rfl) ?_
  · intro q hq
    cases q with
    | none =>
      rw [blk, haddr, blk]
      by_cases hr' : r = 10 <;> simp [hr', eq_comm]
    | some bn =>
      by_cases hr' : r = 10
      · subst hr'
        rw [blk_setIndirect h0 hzero hq, if_neg (by simp)]
      · rw [blk_setAddr (by omega) hq, if_neg hr']
        simp
  · split_ifs with hr'
    · rw [blk, ← hr']
      exact h0
    · rw [blk_direct (by omega)]
      exact h0

/-- The first free block as entry `k` of the indirect block of inode `i₀`. -/
theorem setWord {i₀ k b : ℕ} (h : Img n F d D c) (hi₀ : i₀ < n) (hk : k < 128)
    (hb : (D i₀).addr 10 = b) (hb0 : b ≠ 0) (h0 : (d b).word k = 0) (hF : F < 2 ^ 32) :
    Img n (F + 1) (update d b ((d b).setWord k F)) D c := by
  have hbF : b < F := by
    have := (h.range i₀ hi₀ none trivial (by rw [blk, hb]; exact hb0)).2
    rwa [blk, hb] at this
  have hind : ∀ i < n, (D i).addr 10 = b → i = i₀ := by
    intro i hi he
    exact (h.inj i hi i₀ hi₀ none none trivial trivial (by rw [blk, he]; exact hb0)
      (by rw [blk, blk, he, hb])).1
  rw [← update_eq_self i₀ D]
  refine h.alloc (some (10 + k)) hi₀ ?_ rfl rfl (fun _ _ => rfl) ?_ ?_ ?_ ?_
  · intro x hx
    rw [update_of_ne (by omega)]
    exact h.fresh x (by omega)
  · intro q hq
    cases q with
    | none => simp [blk]
    | some bn =>
      rw [blk_setWord hk hF hb hb0 hq]
      simp
  · intro i hi hii q hq
    exact blk_congr hq fun _ => update_of_ne (fun he => hii (hind i hi he)) _ _
  · intro i hi bn hbn hne
    refine update_of_ne (fun he => ?_) _ _
    have := h.inj i hi i₀ hi₀ (some bn) none (roleOk_some hbn) trivial hne (by rw [he, blk, hb])
    cases this.2
  · rw [blk_indirect (by omega) (by omega), hb, if_neg hb0, show 10 + k - 10 = k by omega]
    exact h0

/-- Where a round of `iappend` at the offset `off` of inode `i₀` writes: to the block there or,
past the blocks it keeps track of, to a block that nothing refers to. -/
def Target (n F : ℕ) (d : Disk) (D : ℕ → Dinode) (i₀ off x : ℕ) : Prop :=
  (off / 512 < 138 ∧ x = blk d (D i₀) (some (off / 512)) ∧ x ≠ 0) ∨
    (138 ≤ off / 512 ∧ 35 ≤ x ∧ x < F ∧ ∀ i < n, ∀ q, RoleOk q → blk d (D i) q ≠ x)

/-- The block is referred to by `i₀` at most, and as a data block. -/
theorem Target.role {i₀ off x i : ℕ} {q : Option ℕ} (hx : Target n F d D i₀ off x)
    (h : Img n F d D c) (hi₀ : i₀ < n) (hi : i < n) (hq : RoleOk q) (he : blk d (D i) q = x)
    (hne : blk d (D i) q ≠ 0) : i = i₀ ∧ q = some (off / 512) := by
  rcases hx with ⟨hlt, hx, -⟩ | ⟨-, -, -, hno⟩
  · exact h.inj i hi i₀ hi₀ q _ hq (roleOk_some hlt) hne (he.trans hx)
  · exact absurd he (hno i hi q hq)

/-- So no pointer is in it. -/
theorem Target.blk_update {i₀ off x i : ℕ} {q : Option ℕ} (hx : Target n F d D i₀ off x)
    (h : Img n F d D c) (hi₀ : i₀ < n) (hi : i < n) (hq : RoleOk q) (buf : Block) :
    blk (update d x buf) (D i) q = blk d (D i) q := by
  refine blk_congr hq fun h0 => update_of_ne (fun he => ?_) _ _
  cases (hx.role h hi₀ hi (q := none) trivial he h0).2

/-- **Bytes written to the block at the end of inode `i₀` are appended to its contents.** -/
theorem write {i₀ off x : ℕ} {src : List UInt8} (h : Img n F d D c) (hi₀ : i₀ < n)
    (hoff : (c i₀).length = off) (hblk : off % 512 + src.length ≤ 512)
    (hmax : off + src.length ≤ MAXFILE * 512) (hx : Target n F d D i₀ off x) :
    Img n F (update d x ((d x).blit (off % 512) src))
      (update D i₀ ((D i₀).setSize (off + src.length)))
      (update c i₀ (c i₀ ++ src)) := by
  have hxF : x < F := by
    rcases hx with ⟨hlt, rfl, hne⟩ | ⟨-, -, hlt, -⟩
    · exact (h.range i₀ hi₀ _ (roleOk_some hlt) hne).2
    · exact hlt
  have hsame : ∀ i < n, ∀ q, RoleOk q → blk (update d x ((d x).blit (off % 512) src))
      (update D i₀ ((D i₀).setSize (off + src.length)) i) q = blk d (D i) q := by
    intro i hi q hq
    rw [← hx.blk_update h hi₀ hi hq, update_apply]
    split_ifs with hii
    · rw [blk_setSize, hii]
    · rfl
  refine ⟨h.base, ?_, ?_, ?_, ?_, ?_, ?_, ?_, ?_, ?_⟩
  · intro b hb
    rw [update_of_ne (by omega)]
    exact h.fresh b hb
  · intro i h2 hi
    rw [update_apply]
    split_ifs with hii
    · exact hii ▸ h.type i h2 hi
    · exact h.type i h2 hi
  · intro i hi
    rw [update_apply, update_apply]
    split_ifs with hii
    · rw [List.length_append, hoff]
      rfl
    · exact h.size i hi
  · intro i hi
    rw [update_apply]
    split_ifs with hii
    · rw [List.length_append, hoff]
      exact hmax
    · exact h.le i hi
  · intro i hi r hr
    rw [update_apply]
    split_ifs with hii
    · exact hii ▸ h.top i hi r hr
    · exact h.top i hi r hr
  · intro i hi q hq
    rw [hsame i hi q hq]
    exact h.range i hi q hq
  · intro i hi j hj q q' hq hq'
    rw [hsame i hi q hq, hsame j hj q' hq']
    exact h.inj i hi j hj q q' hq hq'
  · intro i hi bn hbn hlt
    rw [hsame i hi _ (roleOk_some hbn)]
    rw [update_apply] at hlt
    split_ifs at hlt with hii
    · subst hii
      rw [List.length_append, hoff] at hlt
      by_cases hold : bn * 512 < off
      · exact h.mapped i hi bn hbn (by rw [hoff]; exact hold)
      · obtain rfl : bn = off / 512 := by omega
        rcases hx with ⟨-, rfl, hne⟩ | ⟨hge, -⟩
        · exact hne
        · omega
    · exact h.mapped i hi bn hbn hlt
  · intro i hi k hk hlt
    rw [hsame i hi _ (roleOk_some (by omega))]
    by_cases hii : i = i₀
    · subst hii
      rw [update_self, List.length_append, hoff] at hk
      rw [update_self]
      by_cases hb : k / 512 = off / 512
      · obtain ⟨-, rfl, -⟩ := hx.resolve_right fun hc => by omega
        rw [hb, update_self]
        by_cases hold : k < off
        · rw [Block.byte_blit_of_lt _ _ (by omega), List.getD_append _ _ _ _ (by omega), ← hb]
          exact h.bytes i hi k (by omega) hlt
        · rw [List.getD_append_right _ _ _ _ (by omega), hoff,
            show k % 512 = off % 512 + (k - off) by omega,
            Block.byte_blit_of_mem _ (by omega) (by omega), List.getD_eq_getElem _ _ (by omega)]
      · have hold : k < off := by omega
        have hm := h.mapped i hi (k / 512) (by omega) (by omega)
        rw [update_of_ne, List.getD_append _ _ _ _ (by omega)]
        · exact h.bytes i hi k (by omega) hlt
        · intro he
          have := (hx.role h hi₀ hi (roleOk_some (by omega)) he hm).2
          exact hb (Option.some.inj this)
    · rw [update_of_ne hii] at hk ⊢
      have hm := h.mapped i hi (k / 512) (by omega) (by omega)
      rw [update_of_ne]
      · exact h.bytes i hi k hk hlt
      · exact fun he => hii (hx.role h hi₀ hi (roleOk_some (by omega)) he hm).1

/-- A block that is taken and not referred to. -/
theorem skip (h : Img n F d D c) : Img n (F + 1) d D c where
  base := by have := h.base; omega
  fresh b hb := h.fresh b (by omega)
  type := h.type
  size := h.size
  le := h.le
  top := h.top
  range i hi q hq hne := by have := h.range i hi q hq hne; omega
  inj := h.inj
  mapped := h.mapped
  bytes := h.bytes

end Img

/-! ### A round of `iappend` -/

section Round

variable {n inum off : ℕ} {m m' : State} {din din' : Dinode} {D : ℕ → Dinode}
  {c : ℕ → List UInt8}

/-- `iappend` has `m` as its image, and `din` as its copy of the inode `inum`, of which it has
come to the offset `off`. -/
def Open (n : ℕ) (D : ℕ → Dinode) (c : ℕ → List UInt8) (inum : ℕ) (din : Dinode) (off : ℕ)
    (m : State) : Prop :=
  Img n m.freeblock m.disk (update D inum (din.setSize off)) c

variable {k x fuel off' F i b : ℕ} {junk : ℕ → ℕ → ℕ} {p : List UInt8} {d : Disk} {a : Dinode}

/-- The pointer of a direct block, or to the indirect block, is set if it was not. -/
theorem Open.setBlock (h : Open n D c inum din off m) (hi : inum < n) (hk : k ≤ 10) :
    Open n D c inum (setBlock k din m).1 off (setBlock k din m).2 ∧
      (setBlock k din m).1.addr k ≠ 0 := by
  rw [Mkfs.setBlock]
  split_ifs with h0
  · have := Img.setAddr h hi hk (by rw [update_self]; exact h0)
    rw [update_self, update_idem] at this
    refine ⟨this, ?_⟩
    rw [Dinode.addr_setAddr _ (by omega), if_pos rfl]
    have := Img.base h
    omega
  · exact ⟨h, h0⟩

theorem setBlock_disk (k : ℕ) : (setBlock k din m).2.disk = m.disk := by
  rw [setBlock]
  split_ifs <;> rfl

/-- An entry of the indirect block is set if it was not. Past the entries that the block has, a
block is written to that nothing refers to. -/
theorem Open.indirectEntry {v : ℕ} (h : Open n D c inum din off m) (hi : inum < n)
    (h10 : din.addr 10 ≠ 0) (hge : 10 ≤ off / 512) (hF : m'.freeblock < 2 ^ 32)
    (hv : v = 0 ∨ off / 512 < 138)
    (hrun : indirectEntry v (off / 512 - 10) (din.addr 10) m = .ok (x, m')) :
    Open n D c inum din off m' ∧
      Img.Target n m'.freeblock m'.disk (update D inum (din.setSize off)) inum off x ∧
      ∀ b < 35, m'.disk b = m.disk b := by
  have hF0 := Img.base h
  have hself : update D inum (din.setSize off) inum = din.setSize off :=
    update_self _ _ _
  have hrange : 35 ≤ din.addr 10 := by
    have := (Img.range h inum hi none trivial (by rw [hself]; exact h10)).1
    rwa [hself] at this
  simp only [Mkfs.indirectEntry] at hrun
  split_ifs at hrun with h1 h2 h3 h3
  · -- a new entry
    have h2 : off / 512 - 10 < 128 := h2
    cases hrun
    have hlt : m.freeblock < 2 ^ 32 := lt_trans (Nat.lt_succ_self _) hF
    refine ⟨Img.setWord h hi h2 (by rw [hself]; rfl) h10 h3 hlt, Or.inl ⟨by omega, ?_, by omega⟩,
      fun b hb => update_of_ne (by omega) _ _⟩
    have hblk : blk (update m.disk (din.addr 10) ((m.disk (din.addr 10)).setWord
        (off / 512 - 10) m.freeblock)) din (some (off / 512)) = m.freeblock := by
      rw [blk_setWord h2 hlt rfl h10 (by omega), if_pos (by omega)]
    rw [hself, blk_setSize]
    exact hblk.symm
  · -- an entry that is set
    have h2 : off / 512 - 10 < 128 := h2
    cases hrun
    refine ⟨h, Or.inl ⟨by omega, ?_, h3⟩, fun _ _ => rfl⟩
    rw [hself, blk_setSize, blk_indirect hge (by omega), if_neg h10]
  · -- an element of the second half, which is zero
    have h2 : 128 ≤ off / 512 - 10 := not_lt.mp h2
    cases hrun
    have hdisk : (m.bump.wsect (din.addr 10) ((m.disk (din.addr 10)).setWord (off / 512 - 10)
        m.freeblock)).disk = m.disk := by
      rw [Block.setWord_of_le _ _ h2]
      exact update_eq_self _ _
    rw [Open, hdisk]
    exact ⟨Img.skip h, Or.inr ⟨by omega, hF0, Nat.lt_succ_self _,
      fun i hi q hq => Img.ne_free h hi hq⟩, fun _ _ => rfl⟩
  · rcases hv with rfl | hlt
    · exact absurd rfl h3
    · have h2 : ¬ off / 512 - 10 < 128 := h2
      omega

/-- **A round finds the sector to write to.** -/
theorem Open.iappendBlock (h : Open n D c inum din off m) (hi : inum < n)
    (hF : m'.freeblock < 2 ^ 32) (hj : junk inum off = 0 ∨ off / 512 < 138)
    (hrun : iappendBlock junk inum din off m = .ok (x, din', m')) : Open n D c inum din' off m' ∧
      Img.Target n m'.freeblock m'.disk (update D inum (din'.setSize off)) inum off x ∧
      off / 512 < MAXFILE ∧ ∀ b < 35, m'.disk b = m.disk b := by
  simp only [Mkfs.iappendBlock] at hrun
  split_ifs at hrun with h1 h2
  · have h2 : off / 512 < 10 := h2
    obtain ⟨hopen, hne⟩ := h.setBlock hi h2.le
    cases hrun
    refine ⟨hopen, Or.inl ⟨by omega, ?_, hne⟩, not_le.mp h1, fun b _ => by rw [setBlock_disk]⟩
    rw [update_self, blk_setSize, blk_direct h2]
  · have h2 : 10 ≤ off / 512 := not_lt.mp h2
    obtain ⟨hopen, hne⟩ := h.setBlock hi (le_refl 10)
    obtain ⟨⟨y, u⟩, hent, hrun⟩ := bind_eq_ok.mp hrun
    cases hrun
    obtain ⟨h3, h4, h5⟩ := hopen.indirectEntry hi hne h2 hF hj hent
    exact ⟨h3, h4, not_le.mp h1, fun b hb => by rw [h5 b hb, setBlock_disk]⟩

/-- What the global variables do: the counters go up together, and no inode is allocated. -/
structure Grew (m m' : State) : Prop where
  le : m.freeblock ≤ m'.freeblock
  used : m'.usedblocks + m.freeblock = m.usedblocks + m'.freeblock
  inode : m'.freeinode = m.freeinode

theorem Grew.trans {m'' : State} (h : Grew m m') (h' : Grew m' m'') : Grew m m'' :=
  ⟨h.le.trans h'.le, by have := h.used; have := h'.used; omega, h'.inode.trans h.inode⟩

/-- `setBlock` takes at most one block. -/
theorem grew_setBlock (k : ℕ) : Grew m (setBlock k din m).2 := by
  rw [setBlock]
  split_ifs
  · exact ⟨Nat.le_succ _, by simp only [State.bump]; omega, rfl⟩
  · exact ⟨le_rfl, rfl, rfl⟩

/-- What a round does to the counters. -/
theorem grew_iappendBlock (hrun : iappendBlock junk inum din off m = .ok (x, din', m')) :
    Grew m m' := by
  simp only [Mkfs.iappendBlock] at hrun
  split_ifs at hrun
  · cases hrun
    exact grew_setBlock _
  · obtain ⟨⟨y, u⟩, hent, hrun⟩ := bind_eq_ok.mp hrun
    cases hrun
    have hset : Grew m (setBlock NDIRECT din m).2 := grew_setBlock _
    refine hset.trans ?_
    simp only [Mkfs.indirectEntry] at hent
    generalize (setBlock NDIRECT din m).2 = w at hent
    split_ifs at hent <;> cases hent
    · exact ⟨Nat.le_succ _, by simp only [State.bump, State.wsect]; omega, rfl⟩
    · exact ⟨le_rfl, rfl, rfl⟩
    · exact ⟨Nat.le_succ _, by simp only [State.bump, State.wsect]; omega, rfl⟩
    · exact ⟨le_rfl, rfl, rfl⟩

/-- What the loop does to the counters. -/
theorem grew_iappendLoop (hrun : iappendLoop junk inum fuel p din off m = .ok (din', off', m')) :
    Grew m m' := by
  induction fuel generalizing p din off m with
  | zero =>
    cases hrun
    exact ⟨le_rfl, rfl, rfl⟩
  | succ fuel ih =>
    rw [iappendLoop] at hrun
    split_ifs at hrun
    · cases hrun
      exact ⟨le_rfl, rfl, rfl⟩
    · obtain ⟨⟨x, a, u⟩, hblk, hrun⟩ := bind_eq_ok.mp hrun
      have h1 := grew_iappendBlock hblk
      have h2 := ih hrun
      exact h1.trans { h2 with }

/-- A sector that a round writes to is not one of the metadata. -/
theorem Img.Target.ge {i₀ : ℕ} (h : Img n F d D c) (hi : i₀ < n)
    (hx : Img.Target n F d D i₀ off x) : 35 ≤ x := by
  rcases hx with ⟨hlt, rfl, hne⟩ | ⟨-, hge, -⟩
  · exact (h.range i₀ hi _ (roleOk_some hlt) hne).1
  · exact hge

/-- No direct block past the end of the file is mapped, and no indirect block. -/
def Tight (a : Dinode) : Prop := ∀ r ≤ 10, a.size ≤ r * 512 → a.addr r = 0

/-- The other pointers stay. -/
theorem setBlock_addr_of_ne {r : ℕ} (hk : k ≤ 10) (hne : r ≠ k) :
    (setBlock k din m).1.addr r = din.addr r := by
  rw [setBlock]
  split_ifs
  · rw [Dinode.addr_setAddr _ (by omega), if_neg hne]
  · rfl

/-- The loop sets direct blocks below its final offset only, and so with the indirect block. -/
theorem iappendLoop_addr (hrun : iappendLoop junk inum fuel p din off m = .ok (din', off', m')) :
    off ≤ off' ∧ ∀ r ≤ 10, off' ≤ r * 512 → din'.addr r = din.addr r := by
  induction fuel generalizing p din off m with
  | zero =>
    cases hrun
    exact ⟨le_rfl, fun _ _ _ => rfl⟩
  | succ fuel ih =>
    rw [iappendLoop] at hrun
    split_ifs at hrun with hp
    · cases hrun
      exact ⟨le_rfl, fun _ _ _ => rfl⟩
    · obtain ⟨⟨x, a, u⟩, hblk, hrun⟩ := bind_eq_ok.mp hrun
      obtain ⟨hle, haddr⟩ := ih hrun
      have hpos : 0 < p.length := List.length_pos_iff.mpr hp
      refine ⟨by omega, fun r hr hoff => (haddr r hr hoff).trans ?_⟩
      simp only [iappendBlock] at hblk
      split_ifs at hblk with h1 h2
      · cases hblk
        exact setBlock_addr_of_ne (by omega) (by omega)
      · obtain ⟨⟨y, w⟩, -, hblk⟩ := bind_eq_ok.mp hblk
        cases hblk
        have h2 : 10 ≤ off / 512 := not_lt.mp h2
        exact setBlock_addr_of_ne le_rfl (show r ≠ 10 by omega)

/-- **A round appends** the bytes up to the end of the block, without touching the metadata or the
pointers. -/
theorem Open.round {n1 : ℕ} {u : State} (h : Open n D c inum din off m) (hi : inum < n)
    (hoff : (c inum).length = off) (hF : u.freeblock < 2 ^ 32)
    (hj : junk inum off = 0 ∨ off / 512 < 138)
    (hn1 : n1 = min p.length ((off / 512 + 1) * 512 - off))
    (hblk : Mkfs.iappendBlock junk inum din off m = .ok (x, a, u)) :
    Open n D (update c inum (c inum ++ p.take n1)) inum a (off + n1)
        (u.wsect x ((u.disk x).blit (off - off / 512 * 512) (p.take n1))) ∧
      (∀ q, RoleOk q → blk (update u.disk x ((u.disk x).blit (off - off / 512 * 512)
        (p.take n1))) a q = blk u.disk a q) ∧
      ∀ b < 35, (u.wsect x ((u.disk x).blit (off - off / 512 * 512) (p.take n1))).disk b =
        m.disk b := by
  obtain ⟨hopen, hx, hmax, hlow⟩ := h.iappendBlock hi hF hj hblk
  have hlen : (p.take n1).length = n1 := List.length_take_of_le (by omega)
  have hwrite := Img.write hopen hi hoff (by rw [hlen]; omega) (by rw [hlen]; omega) hx
  rw [update_self, update_idem, hlen] at hwrite
  rw [show off - off / 512 * 512 = off % 512 by omega]
  have hx35 := Img.Target.ge hopen hi hx
  refine ⟨hwrite, fun q hq => ?_, fun b hb => ?_⟩
  · have := hx.blk_update hopen hi hi hq ((u.disk x).blit (off % 512) (p.take n1))
    rwa [update_self, blk_setSize, blk_setSize] at this
  · rw [← hlow b hb]
    exact update_of_ne (by omega) _ _

/-- **The loop of `iappend` appends**, without touching the metadata. -/
theorem Open.iappendLoop (h : Open n D c inum din off m) (hi : inum < n)
    (hoff : (c inum).length = off) (hfuel : p.length ≤ fuel) (hF : m'.freeblock < 2 ^ 32)
    (hj : (∀ i k, junk i k = 0) ∨ off + p.length ≤ 138 * 512)
    (hrun : iappendLoop junk inum fuel p din off m = .ok (din', off', m')) :
    off' = off + p.length ∧ Open n D (update c inum (c inum ++ p)) inum din' off' m' ∧
      ∀ b < 35, m'.disk b = m.disk b := by
  -- induction on the fuel: a round writes the bytes up to the end of the block
  induction fuel generalizing p din off m c with
  | zero =>
    obtain rfl : p = [] := List.length_eq_zero_iff.mp (by omega)
    cases hrun
    exact ⟨rfl, by rwa [List.append_nil, update_eq_self], fun _ _ => rfl⟩
  | succ fuel ih =>
    rw [Mkfs.iappendLoop] at hrun
    split_ifs at hrun with hp
    · subst hp
      cases hrun
      exact ⟨rfl, by rwa [List.append_nil, update_eq_self], fun _ _ => rfl⟩
    · obtain ⟨⟨x, a, u⟩, hblk, hrun⟩ := bind_eq_ok.mp hrun
      have hpos : 0 < p.length := List.length_pos_iff.mpr hp
      have hu : u.freeblock < 2 ^ 32 := (grew_iappendLoop hrun).le.trans_lt hF
      obtain ⟨n1, hn1⟩ : ∃ n1, n1 = min p.length ((off / 512 + 1) * 512 - off) := ⟨_, rfl⟩
      obtain ⟨hopen, -, hlow⟩ := h.round hi hoff hu
        (hj.imp (fun hz => hz _ _) fun hle => by omega) hn1 hblk
      have hlen : (p.take n1).length = n1 := List.length_take_of_le (by omega)
      rw [← hn1] at hrun
      obtain ⟨h1, h2, h3⟩ := ih (p := p.drop n1) hopen
        (by rw [update_self, List.length_append, hlen, hoff])
        (by rw [List.length_drop]; omega) (hj.imp id fun hle => by rw [List.length_drop]; omega)
        hrun
      refine ⟨by rw [h1, List.length_drop]; omega, ?_, fun b hb => (h3 b hb).trans (hlow b hb)⟩
      rwa [update_self, update_idem, List.append_assoc, List.take_append_drop] at h2

/-! ### Inodes -/

/-- The sectors below the data blocks are not part of any tree. -/
theorem Img.low {d' : Disk} (h : Img n F d D c) (hd : ∀ b, 35 ≤ b → d' b = d b) :
    Img n F d' D c := by
  have hF := h.base
  have hblk : ∀ i < n, ∀ q, RoleOk q → blk d' (D i) q = blk d (D i) q :=
    fun i hi q hq => blk_congr hq fun h0 => hd _ (h.range i hi none trivial h0).1
  refine ⟨hF, fun b hb => by rw [hd b (by omega)]; exact h.fresh b hb, h.type, h.size, h.le, h.top,
    ?_, ?_, ?_, ?_⟩
  · intro i hi q hq
    rw [hblk i hi q hq]
    exact h.range i hi q hq
  · intro i hi j hj q q' hq hq'
    rw [hblk i hi q hq, hblk j hj q' hq']
    exact h.inj i hi j hj q q' hq hq'
  · intro i hi bn hbn
    rw [hblk i hi _ (roleOk_some hbn)]
    exact h.mapped i hi bn hbn
  · intro i hi k hk hlt
    have hm := h.mapped i hi (k / 512) (by omega) (by omega)
    rw [hblk i hi _ (roleOk_some (by omega)), hd _ (h.range i hi _ (roleOk_some (by omega)) hm).1]
    exact h.bytes i hi k hk hlt

/-- The inodes of an image can be stored. -/
theorem Img.fits (h : Img n F d D c) (hi : i < n) (hF : F < 2 ^ 32) : (D i).Fits := by
  have hrole : ∀ q, RoleOk q → blk d (D i) q < 2 ^ 32 := by
    intro q hq
    by_cases h0 : blk d (D i) q = 0
    · omega
    · exact (h.range i hi q hq h0).2.trans hF
  refine ⟨?_, fun r => ?_⟩
  · have := h.le i hi
    rw [maxfile_eq] at this
    rw [h.size i hi]
    omega
  · rcases Nat.lt_or_ge r 11 with hr | hr
    · rcases Nat.lt_or_ge r 10 with hr' | hr'
      · rw [← blk_direct (d := d) hr']
        exact hrole _ (roleOk_some (by omega))
      · obtain rfl : r = 10 := by omega
        exact hrole none trivial
    · rw [h.top i hi r hr]
      omega

theorem winode_disk : (m.winode inum a).disk = update m.disk (IBLOCK inum)
    (putDinode (m.disk (IBLOCK inum)) (inum % IPB) a) := rfl

/-- `winode` stores one inode. -/
theorem rinode_winode (ha : a.Fits) :
    (m.winode inum a).rinode i = if i = inum then a else m.rinode i := by
  have hslot : ∀ k, k % IPB < 8 := fun k => Nat.mod_lt _ (by decide)
  rw [State.rinode, winode_disk]
  by_cases hb : IBLOCK i = IBLOCK inum
  · rw [hb, update_self]
    split_ifs with hi
    · rw [hi, getDinode_putDinode_self _ (hslot _) ha]
    · rw [getDinode_putDinode_of_ne _ (hslot _) ha, State.rinode, hb]
      rw [iblock_eq, iblock_eq] at hb
      simp only [IPB, BSIZE]
      omega
  · rw [update_of_ne hb, if_neg fun hi => hb (by rw [hi])]
    rfl

/-- `winode` does not write to data blocks. -/
theorem winode_disk_of_ge (hi : inum < 264) (hb : 35 ≤ b) :
    (m.winode inum a).disk b = m.disk b := by
  refine update_of_ne ?_ _ _
  rw [iblock_eq]
  omega

/-- The superblock is not an inode block. -/
theorem winode_disk_one : (m.winode inum a).disk 1 = m.disk 1 := by
  have hne : 1 ≠ IBLOCK inum := by
    rw [iblock_eq]
    omega
  rw [winode_disk, update_of_ne hne]

/-- The bitmap is not an inode block either, as long as the inodes are below number 208. -/
theorem winode_disk_of_bitmap (hi : inum < 208) (hb : 28 ≤ b) :
    (m.winode inum a).disk b = m.disk b := by
  have hne : b ≠ IBLOCK inum := by
    rw [iblock_eq]
    omega
  rw [winode_disk, update_of_ne hne]

/-- A new inode can be stored. -/
theorem fits_ialloc (type : BitVec 16) :
    ({ Dinode.zero with type := type, nlink := 1 } : Dinode).Fits := by
  refine ⟨by simp [Dinode.zero], fun i => ?_⟩
  rw [Dinode.addr_eq_zero fun _ => rfl]
  omega

/-- The start of `iappend`. -/
theorem Img.opened (h : Img n m.freeblock m.disk m.rinode c) :
    Open n m.rinode c inum (m.rinode inum) (m.rinode inum).size m := by
  have hself : (m.rinode inum).setSize (m.rinode inum).size = m.rinode inum := rfl
  rwa [Open, hself, update_eq_self]

/-- The parts of `iappend`: the loop, which does not touch the metadata, and the update of the
inode. -/
theorem Img.iappend_cases (h : Img n m.freeblock m.disk m.rinode c) (hi : inum < n)
    (hF : m'.freeblock < 2 ^ 32)
    (hj : (∀ i k, junk i k = 0) ∨ (c inum).length + p.length ≤ 138 * 512)
    (hrun : iappend junk inum p m = .ok m') :
    ∃ a u, iappendLoop junk inum p.length p (m.rinode inum) (m.rinode inum).size m =
        .ok (a, (m.rinode inum).size + p.length, u) ∧
      m' = u.winode inum (a.setSize ((m.rinode inum).size + p.length)) ∧
      Open n m.rinode (update c inum (c inum ++ p)) inum a
        ((m.rinode inum).size + p.length) u ∧
      (a.setSize ((m.rinode inum).size + p.length)).Fits ∧ ∀ b < 35, u.disk b = m.disk b := by
  obtain ⟨⟨a, off, u⟩, hloop, hrun⟩ := bind_eq_ok.mp hrun
  cases hrun
  have hF : u.freeblock < 2 ^ 32 := hF
  have hsize := h.size inum hi
  obtain ⟨rfl, hend, hlow⟩ := h.opened.iappendLoop hi hsize.symm le_rfl hF
    (hj.imp id fun hle => by rw [hsize]; exact hle) hloop
  have hfits := Img.fits hend hi hF
  rw [update_self] at hfits
  exact ⟨a, u, hloop, rfl, hend, hfits, hlow⟩

/-- What `iappend` does to the counters. -/
theorem grew_iappend (hrun : iappend junk inum p m = .ok m') : Grew m m' := by
  obtain ⟨⟨a, off, u⟩, hloop, hrun⟩ := bind_eq_ok.mp hrun
  cases hrun
  have h := grew_iappendLoop hloop
  exact { h with }

/-- The superblock is in place, the root directory has no blocks past its end, and the bitmap is
empty unless there are inodes in it. -/
structure RootOk (m : State) : Prop where
  super : m.disk 1 = sb.toBlock
  tight : Tight (m.rinode 1)
  bitmap : m.freeinode ≤ 208 → ∀ b, 28 ≤ b → b < 35 → m.disk b = Block.zero

/-- A new inode does not concern the root directory. -/
theorem RootOk.ialloc {type : BitVec 16} (h : RootOk m) (hne : m.freeinode ≠ 1) :
    RootOk (m.ialloc type).2 := by
  refine ⟨winode_disk_one.trans h.super, ?_, fun hle b hb hb' => ?_⟩
  · have : (m.ialloc type).2.rinode 1 = m.rinode 1 :=
      (rinode_winode (fits_ialloc type)).trans (if_neg hne.symm)
    rw [this]
    exact h.tight
  · have hle : m.freeinode + 1 ≤ 208 := hle
    exact (winode_disk_of_bitmap (by omega) hb).trans (h.bitmap (by omega) b hb hb')

section Iappend

variable {junk : ℕ → ℕ → ℕ} {p : List UInt8} (h : Img n m.freeblock m.disk m.rinode c)
  (hi : inum < n) (hF : m'.freeblock < 2 ^ 32)
  (hj : (∀ i k, junk i k = 0) ∨ (c inum).length + p.length ≤ 138 * 512)
  (hrun : Mkfs.iappend junk inum p m = .ok m')
include h hi hF hj hrun

/-- `iappend` stores one inode. -/
theorem Img.rinode_iappend (hi' : i < 264) (hne : i ≠ inum) : m'.rinode i = m.rinode i := by
  obtain ⟨a, u, -, rfl, -, hfits, hlow⟩ := h.iappend_cases hi hF hj hrun
  have hb : IBLOCK i < 35 := by
    rw [iblock_eq]
    omega
  rw [rinode_winode hfits, if_neg hne, State.rinode, State.rinode, hlow _ hb]

/-- `iappend` maps no block of the root directory past its end. -/
theorem RootOk.iappend (hroot : RootOk m) (hn : n ≤ m.freeinode) : RootOk m' := by
  have hother := fun hne => h.rinode_iappend hi hF hj hrun (i := 1) (by omega) hne
  have hgrew := grew_iappend hrun
  obtain ⟨a, u, hloop, rfl, -, hfits, hlow⟩ := h.iappend_cases hi hF hj hrun
  refine ⟨?_, ?_, ?_⟩
  · rw [winode_disk_one, hlow 1 (by omega), hroot.super]
  · by_cases h1 : 1 = inum
    · subst h1
      rw [rinode_winode hfits, if_pos rfl]
      intro r hr hle
      have hle : (m.rinode 1).size + p.length ≤ r * 512 := hle
      exact ((iappendLoop_addr hloop).2 r hr hle).trans (hroot.tight r hr (by omega))
    · rw [hother h1]
      exact hroot.tight
  · intro hle b hb hb'
    have hle : m.freeinode ≤ 208 := hgrew.inode ▸ hle
    rw [winode_disk_of_bitmap (by omega) hb, hlow b hb', hroot.bitmap hle b hb hb']

/-- **`iappend` appends to one inode.** -/
theorem Img.iappend (hn : n ≤ 264) :
    Img n m'.freeblock m'.disk m'.rinode (update c inum (c inum ++ p)) := by
  have hother := fun i hlt => h.rinode_iappend hi hF hj hrun (i := i) hlt
  obtain ⟨a, u, -, rfl, hend, hfits, -⟩ := h.iappend_cases hi hF hj hrun
  refine (Img.low hend fun b hb => winode_disk_of_ge (by omega) hb).congr fun i hi' => ?_
  rw [update_apply]
  split_ifs with hii
  · rw [rinode_winode hfits, if_pos hii]
  · exact hother i (by omega) hii

end Iappend

/-- A further inode without contents. -/
theorem Img.extend (h : Img n F d D c) (hc : c n = []) (hsize : (D n).size = 0)
    (haddr : ∀ r, (D n).addr r = 0) (htype : 2 ≤ n → (D n).type = T_FILE) :
    Img (n + 1) F d D c := by
  have hblk : ∀ q, RoleOk q → blk d (D n) q = 0 := by
    intro q hq
    cases q with
    | none => exact haddr 10
    | some bn =>
      by_cases hlt : bn < 10
      · rw [blk_direct hlt, haddr]
      · rw [blk_indirect (by omega) hq, if_pos (haddr 10)]
  have hcases : ∀ i < n + 1, i < n ∨ i = n := fun i hi => by omega
  refine ⟨h.base, h.fresh, ?_, ?_, ?_, ?_, ?_, ?_, ?_, ?_⟩
  · intro i h2 hi
    rcases hcases i hi with hi | rfl
    · exact h.type i h2 hi
    · exact htype h2
  · intro i hi
    rcases hcases i hi with hi | rfl
    · exact h.size i hi
    · rw [hsize, hc, List.length_nil]
  · intro i hi
    rcases hcases i hi with hi | rfl
    · exact h.le i hi
    · rw [hc]
      exact Nat.zero_le _
  · intro i hi r hr
    rcases hcases i hi with hi | rfl
    · exact h.top i hi r hr
    · exact haddr r
  · intro i hi q hq hne
    rcases hcases i hi with hi | rfl
    · exact h.range i hi q hq hne
    · exact absurd (hblk q hq) hne
  · intro i hi j hj q q' hq hq' hne he
    rcases hcases i hi with hi | rfl
    · rcases hcases j hj with hj | rfl
      · exact h.inj i hi j hj q q' hq hq' hne he
      · exact absurd (he.trans (hblk q' hq')) hne
    · exact absurd (hblk q hq) hne
  · intro i hi bn hbn hlt
    rcases hcases i hi with hi | rfl
    · exact h.mapped i hi bn hbn hlt
    · rw [hc] at hlt
      cases hlt
  · intro i hi k hk
    rcases hcases i hi with hi | rfl
    · exact h.bytes i hi k hk
    · rw [hc] at hk
      cases hk

/-- **`ialloc` adds an inode without contents.** -/
theorem Img.ialloc {type : BitVec 16} (h : Img m.freeinode m.freeblock m.disk m.rinode c)
    (hn : m.freeinode < 264) (hc : c m.freeinode = []) (htype : 2 ≤ m.freeinode → type = T_FILE) :
    Img (m.freeinode + 1) m.freeblock (m.ialloc type).2.disk (m.ialloc type).2.rinode c := by
  have hr : ∀ i, (m.ialloc type).2.rinode i =
      if i = m.freeinode then { Dinode.zero with type := type, nlink := 1 } else m.rinode i :=
    fun i => rinode_winode (fits_ialloc type)
  have hold : Img m.freeinode m.freeblock (m.ialloc type).2.disk (m.ialloc type).2.rinode c :=
    (h.low fun b hb => winode_disk_of_ge hn hb).congr fun i hi => by rw [hr, if_neg (by omega)]
  refine hold.extend hc ?_ ?_ ?_ <;> rw [hr, if_pos rfl]
  · rfl
  · exact Dinode.addr_eq_zero fun _ => rfl
  · exact htype

end Round

/-! ### All files -/

section Build

variable {junk : ℕ → ℕ → ℕ} {m m' : State} {c : ℕ → List UInt8} {fs : List HostFile} {f : HostFile}

/-- The image once the files `fs` have been added: they are the inodes from number 2 on. -/
structure Built (fs : List HostFile) (m : State) (c : ℕ → List UInt8) : Prop where
  inode : m.freeinode = fs.length + 2
  used : m.usedblocks = m.freeblock
  img : Img m.freeinode m.freeblock m.disk m.rinode c
  root : (c 1).length = 16 * (fs.length + 2)
  content : ∀ j f, fs[j]? = some f → c (j + 2) = f.content
  rest : ∀ i, m.freeinode ≤ i → c i = []
  rootOk : RootOk m

/-- What adding a file does: an inode, an entry of the root directory, and the contents. -/
theorem addFile_cases (hrun : addFile junk m f = .ok m') :
    ∃ de u, de.length = 16 ∧ iappend junk ROOTINO de (m.ialloc T_FILE).2 = .ok u ∧
      f.chunks.foldlM (fun s x => iappend junk m.freeinode x s) u = .ok m' := by
  rw [addFile] at hrun
  by_cases hs : slash ∈ f.name
  · rw [if_pos hs] at hrun
    cases hrun
  · rw [if_neg hs] at hrun
    obtain ⟨u, hroot, hrun⟩ := bind_eq_ok.mp hrun
    exact ⟨_, u, length_mkDirent _ _, hroot, hrun⟩

/-- No block is given back. -/
theorem le_addFile (hrun : addFile junk m f = .ok m') : m.freeblock ≤ m'.freeblock := by
  obtain ⟨de, u, -, hroot, hrun⟩ := addFile_cases hrun
  have hle : m.freeblock ≤ u.freeblock := (grew_iappend hroot).le
  refine foldlM_ok (P := fun _ s => m.freeblock ≤ s.freeblock) ?_ hrun hle
  intro pre x post s s' _ h hstep
  exact h.trans (grew_iappend hstep).le

/-- The image with the inode of a further file. -/
theorem Built.ialloc (h : Built fs m c) (hn : fs.length + 3 ≤ 264) :
    Img (m.freeinode + 1) m.freeblock (m.ialloc T_FILE).2.disk (m.ialloc T_FILE).2.rinode c := by
  have hinode := h.inode
  exact h.img.ialloc (by omega) (h.rest _ le_rfl) fun _ => rfl

/-- The image once the file has its entry in the root directory. -/
theorem Built.entry {de : List UInt8} {u : State} (h : Built fs m c) (hn : fs.length + 3 ≤ 264)
    (hde : de.length = 16) (hroot : iappend junk ROOTINO de (m.ialloc T_FILE).2 = .ok u)
    (hF : u.freeblock < 2 ^ 32) :
    RootOk u ∧ Img (m.freeinode + 1) u.freeblock u.disk u.rinode
      (update (update c 1 (c 1 ++ de)) m.freeinode []) := by
  have hinode := h.inode
  have hnil : update c 1 (c 1 ++ de) m.freeinode = [] := by
    rw [update_of_ne (by omega), h.rest _ le_rfl]
  rw [← hnil, update_eq_self]
  have hroot' : (c ROOTINO).length + de.length ≤ 138 * 512 := by
    have : (c ROOTINO).length = 16 * (fs.length + 2) := h.root
    omega
  have hlt : ROOTINO < m.freeinode + 1 := by
    simp only [ROOTINO]
    omega
  exact ⟨RootOk.iappend (h.ialloc hn) hlt hF (Or.inr hroot') hroot
    (h.rootOk.ialloc (by omega)) le_rfl,
    Img.iappend (h.ialloc hn) hlt hF (Or.inr hroot') hroot (by omega)⟩

/-- The pieces up to the one being added are not more than the contents. -/
theorem HostFile.le_length_content {pre post : List (List UInt8)} {x : List UInt8}
    (h : f.chunks = pre ++ x :: post) : pre.flatten.length + x.length ≤ f.content.length := by
  rw [HostFile.content, h, List.flatten_append, List.flatten_cons, List.length_append,
    List.length_append]
  omega

/-- A further piece of the contents of the last inode. -/
theorem Img.chunk {i : ℕ} {s s' : State} {pre : List (List UInt8)} {x : List UInt8}
    (h : Img (i + 1) s.freeblock s.disk s.rinode (update c i pre.flatten)) (hi : i + 1 ≤ 264)
    (hF : s'.freeblock < 2 ^ 32)
    (hj : (∀ i k, junk i k = 0) ∨ (update c i pre.flatten i).length + x.length ≤ 138 * 512)
    (hstep : Mkfs.iappend junk i x s = .ok s') :
    Img (i + 1) s'.freeblock s'.disk s'.rinode (update c i (pre ++ [x]).flatten) := by
  have himg := h.iappend (Nat.lt_succ_self i) hF hj hstep hi
  rwa [update_self, update_idem, ← List.flatten_concat] at himg

/-- **Adding a file.** -/
theorem Built.addFile (h : Built fs m c) (hn : fs.length + 3 ≤ 264) (hF : m'.freeblock < 2 ^ 32)
    (hj : (∀ i k, junk i k = 0) ∨ f.content.length ≤ 138 * 512)
    (hrun : addFile junk m f = .ok m') : ∃ c', Built (fs ++ [f]) m' c' := by
  obtain ⟨de, u, hde, hroot, hrun⟩ := addFile_cases hrun
  obtain ⟨i, hi⟩ : ∃ i, i = m.freeinode := ⟨_, rfl⟩
  have hinode := h.inode
  rw [← hi] at hrun
  -- the chunks, one after the other
  have hchunks : m'.freeblock < 2 ^ 32 → Grew u m' ∧ RootOk m' ∧
      Img (i + 1) m'.freeblock m'.disk m'.rinode
        (update (update c 1 (c 1 ++ de)) i f.content) := by
    refine foldlM_ok (P := fun pre s => s.freeblock < 2 ^ 32 → Grew u s ∧ RootOk s ∧
      Img (i + 1) s.freeblock s.disk s.rinode
        (update (update c 1 (c 1 ++ de)) i pre.flatten)) ?_ hrun ?_
    · intro pre x post s s' hl hP hstep hlt
      have hgrew := grew_iappend hstep
      obtain ⟨hg, hok, himg⟩ := hP (hgrew.le.trans_lt hlt)
      have hj' : (∀ i k, junk i k = 0) ∨ (update (update c 1 (c 1 ++ de)) i
          pre.flatten i).length + x.length ≤ 138 * 512 := by
        refine hj.imp id fun hle => ?_
        rw [update_self]
        exact (HostFile.le_length_content hl).trans hle
      refine ⟨hg.trans hgrew, RootOk.iappend himg (Nat.lt_succ_self i) hlt hj' hstep hok ?_,
        himg.chunk (by omega) hlt hj' hstep⟩
      rw [hg.inode, (grew_iappend hroot).inode, hi]
      exact le_rfl
    · intro hlt
      obtain ⟨hok, himg⟩ := h.entry hn hde hroot hlt
      rw [hi]
      exact ⟨⟨le_rfl, rfl, rfl⟩, hok, himg⟩
  obtain ⟨hgrew, hok, himg⟩ := hchunks hF
  have hgrew' := grew_iappend hroot
  have hnext : m'.freeinode = i + 1 := by
    rw [hgrew.inode, hgrew'.inode, hi]
    rfl
  have hused : m'.usedblocks = m'.freeblock := by
    have hstart : (m.ialloc T_FILE).2.usedblocks = (m.ialloc T_FILE).2.freeblock := h.used
    have := hgrew.used
    have := hgrew'.used
    omega
  have hc : ∀ k, k ≠ 1 → k ≠ i →
      update (update c 1 (c 1 ++ de)) i f.content k = c k := by
    intro k h1 hki
    rw [update_of_ne hki, update_of_ne h1]
  refine ⟨_, by rw [hnext, List.length_append, List.length_singleton]; omega, hused,
    by rwa [hnext], ?_, ?_, ?_, hok⟩
  · rw [update_of_ne (by omega), update_self, List.length_append, h.root, hde,
      List.length_append, List.length_singleton]
    omega
  · intro j g hg
    rcases Nat.lt_trichotomy j fs.length with hj' | rfl | hj'
    · rw [List.getElem?_append_left hj'] at hg
      rw [hc _ (by omega) (by omega)]
      exact h.content j g hg
    · rw [List.getElem?_append_right le_rfl, Nat.sub_self] at hg
      cases hg
      rw [← hinode, ← hi, update_self]
    · rw [List.getElem?_eq_none (by simp; omega)] at hg
      cases hg
  · intro k hk
    rw [hc k (by omega) (by omega)]
    exact h.rest k (by omega)

theorem start_disk_of_ne {b : ℕ} (hb : b ≠ 1) : start.disk b = Block.zero := by
  have hdisk : start.disk = update (fun _ => Block.zero) 1 sb.toBlock := rfl
  rw [hdisk, update_of_ne hb]

theorem rinode_start (i : ℕ) : start.rinode i = Dinode.zero := by
  rw [State.rinode, start_disk_of_ne (by rw [iblock_eq]; omega), getDinode_zero]

/-- Before anything is allocated; inode 0 is not used. -/
theorem img_start : Img 1 start.freeblock start.disk start.rinode fun _ => [] := by
  have hbase : start.freeblock = 35 := rfl
  have hempty : Img 0 start.freeblock start.disk start.rinode fun _ => [] := by
    refine ⟨le_rfl, fun b hb => start_disk_of_ne (by omega), ?_, ?_, ?_, ?_, ?_, ?_, ?_, ?_⟩ <;>
      (intros; omega)
  refine hempty.extend rfl ?_ ?_ ?_
  · rw [rinode_start]
    rfl
  · rw [rinode_start]
    exact Dinode.addr_eq_zero fun _ => rfl
  · intro h
    omega

/-- The root directory as `ialloc` makes it. -/
theorem rootOk_root : RootOk (start.ialloc T_DIR).2 := by
  have hroot : (start.ialloc T_DIR).2.rinode 1 = { Dinode.zero with type := T_DIR, nlink := 1 } :=
    rinode_winode (fits_ialloc T_DIR)
  refine ⟨winode_disk_one, fun r _ _ => ?_, fun _ b hb _ => ?_⟩
  · rw [hroot]
    exact Dinode.addr_eq_zero (fun _ => rfl) r
  · exact (winode_disk_of_bitmap (by decide) hb).trans (start_disk_of_ne (by omega))

/-- The image with the inode of the root directory. -/
theorem img_root : Img 2 start.freeblock (start.ialloc T_DIR).2.disk (start.ialloc T_DIR).2.rinode
    fun _ => [] :=
  Img.ialloc (m := start) img_start (by decide) rfl fun h => absurd h (by decide)

variable {files : List HostFile}

/-- What `build` does before the files: the root directory and its first two entries. -/
theorem build_cases (hrun : build junk files = .ok m') :
    ∃ de de' u u', de.length = 16 ∧ de'.length = 16 ∧
      iappend junk 1 de (start.ialloc T_DIR).2 = .ok u ∧ iappend junk 1 de' u = .ok u' ∧
      files.foldlM (Mkfs.addFile junk) u' = .ok m' := by
  have hino : (start.ialloc T_DIR).1 = 1 := rfl
  simp only [build, hino, ROOTINO, ne_eq, not_true_eq_false, if_false] at hrun
  obtain ⟨u, h1, hrun⟩ := bind_eq_ok.mp hrun
  obtain ⟨u', h2, hrun⟩ := bind_eq_ok.mp hrun
  exact ⟨_, _, u, u', length_mkDirent _ _, length_mkDirent _ _, h1, h2, hrun⟩

/-- The image with the root directory and no files. -/
theorem built_nil {de de' : List UInt8} {u u' : State} (hde : de.length = 16)
    (hde' : de'.length = 16) (h1 : iappend junk 1 de (start.ialloc T_DIR).2 = .ok u)
    (h2 : iappend junk 1 de' u = .ok u') (hF : u'.freeblock < 2 ^ 32) : ∃ c, Built [] u' c := by
  have g1 := grew_iappend h1
  have g2 := grew_iappend h2
  have hF1 := g2.le.trans_lt hF
  have j1 : (∀ i k, junk i k = 0) ∨ ([] : List UInt8).length + de.length ≤ 138 * 512 :=
    Or.inr (by simp [hde])
  have i1 := Img.iappend img_root (by omega) hF1 j1 h1 (by omega)
  have j2 : (∀ i k, junk i k = 0) ∨ (update (fun _ => []) 1 ([] ++ de) 1).length +
      de'.length ≤ 138 * 512 := Or.inr (by simp [hde, hde'])
  have i2 := Img.iappend i1 (by omega) hF j2 h2 (by omega)
  have hfree : 2 ≤ (start.ialloc T_DIR).2.freeinode := le_rfl
  have r1 := RootOk.iappend img_root (by omega) hF1 j1 h1 rootOk_root hfree
  have r2 := RootOk.iappend i1 (by omega) hF j2 h2 r1 (g1.inode ▸ hfree)
  have hinode : u'.freeinode = 2 := by
    rw [g2.inode, g1.inode]
    rfl
  refine ⟨_, hinode, ?_, by rw [hinode]; exact i2, ?_, ?_, ?_, r2⟩
  · have := g1.used
    have := g2.used
    have hstart : (start.ialloc T_DIR).2.usedblocks = (start.ialloc T_DIR).2.freeblock := rfl
    omega
  · simp [hde, hde']
  · intro j f hf
    cases hf
  · intro k hk
    rw [update_of_ne (by omega), update_of_ne (by omega)]

/-- **The image once all files are added.** -/
theorem built_of_build (hrun : build junk files = .ok m) (hn : files.length + 2 ≤ 264)
    (hF : m.freeblock < 2 ^ 32)
    (hj : (∀ i k, junk i k = 0) ∨ ∀ f ∈ files, f.content.length ≤ 138 * 512) :
    ∃ c, Built files m c := by
  obtain ⟨de, de', u, u', hde, hde', h1, h2, hrun⟩ := build_cases hrun
  refine foldlM_ok (P := fun pre s => s.freeblock < 2 ^ 32 → ∃ c, Built pre s c) ?_ hrun
    (built_nil hde hde' h1 h2) hF
  intro pre f post s s' hl hP hstep hF'
  obtain ⟨c, hc⟩ := hP ((le_addFile hstep).trans_lt hF')
  have hlen : files.length = pre.length + (post.length + 1) := by rw [hl, List.length_append]; rfl
  exact hc.addFile (by omega) hF' (hj.imp id fun h => h f (by simp [hl])) hstep

/-- The two counters, for every list of files. -/
theorem usedblocks_build (hrun : build junk files = .ok m) :
    m.usedblocks = m.freeblock ∧ 35 ≤ m.freeblock := by
  obtain ⟨de, de', u, u', -, -, h1, h2, hrun⟩ := build_cases hrun
  have hgrew : ∀ {s t : State}, Grew s t → s.usedblocks = s.freeblock ∧ 35 ≤ s.freeblock →
      t.usedblocks = t.freeblock ∧ 35 ≤ t.freeblock := by
    rintro s t ⟨hle, hused, -⟩ ⟨h1, h2⟩
    omega
  refine foldlM_ok (P := fun _ s => s.usedblocks = s.freeblock ∧ 35 ≤ s.freeblock) ?_ hrun
    (hgrew (grew_iappend h2) (hgrew (grew_iappend h1) ⟨rfl, le_rfl⟩))
  intro pre f post s s' _ hs hstep
  obtain ⟨de, w, -, hroot, hchunks⟩ := addFile_cases hstep
  refine foldlM_ok (P := fun _ s => s.usedblocks = s.freeblock ∧ 35 ≤ s.freeblock) ?_ hchunks
    (hgrew (grew_iappend hroot) hs)
  intro _ x _ v v' _ hv hx
  exact hgrew (grew_iappend hx) hv

end Build

end Mkfs

end Xv6
