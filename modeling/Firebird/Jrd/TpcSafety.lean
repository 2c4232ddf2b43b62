import Firebird.Jrd.Inventory

/-!
# The cache of the inventory pages stays true

What every routine of the cache keeps: the blocks follow each other without a gap, no block of an
interesting transaction is missing at their start, and a block says committed or dead only of a
transaction that is so on its page.
-/
namespace Firebird.Jrd.Tpc

open Lib List

/-! ## Lists of blocks -/

/-- The first block starts at `bound` or below, also after blocks that end there are dropped. -/
def StartsBelow (t bound : Nat) : List TxPageCache → Prop
  | [] => True
  | tpc :: rest => tpc.tpcBase ≤ bound ∧ (tpc.tpcBase + t ≤ bound → StartsBelow t bound rest)

/-- Successive pages, but for gaps above blocks that end before `limit`. -/
def Gapped (t limit : Nat) : List TxPageCache → Prop
  | [] => True
  | tpc :: rest => t ∣ tpc.tpcBase ∧
    (∀ next ∈ rest.head?, next.tpcBase = tpc.tpcBase + t ∨ tpc.tpcBase + t < limit) ∧
    Gapped t limit rest

/-- What a block says of a committed or dead transaction is on its page. -/
def Agrees (dbb : Database) (tpc : TxPageCache) : Prop :=
  ∀ n < 2 ^ 31, tpc.Holds dbb.transPerTIP n → (tpc.state n).Final → tpc.state n = dbb.tipState n

variable {t bound limit b : Nat} {q : TxPageCache → Bool} {f : Bytes → Bytes}
  {cache rest more : List TxPageCache}

theorem Blocks.startsBelow (h : Blocks t b cache) (hb : b ≤ bound) : StartsBelow t bound cache := by
  induction cache generalizing b with
  | nil => trivial
  | cons tpc rest ih =>
    obtain ⟨rfl, hrest⟩ := h
    exact ⟨hb, ih hrest⟩

theorem StartsBelow.append (h : StartsBelow t bound cache)
    (hlast : ∀ tpc ∈ cache.getLast?, tpc.tpcBase + t ≤ bound → StartsBelow t bound more)
    (hne : cache = [] → StartsBelow t bound more) : StartsBelow t bound (cache ++ more) := by
  induction cache with
  | nil => exact hne rfl
  | cons tpc rest ih =>
    refine ⟨h.1, fun hle => ?_⟩
    cases rest with
    | nil => exact hlast tpc rfl hle
    | cons next rest =>
      exact ih (h.2 hle) (by simpa using hlast) (fun h => by cases h)

theorem StartsBelow.dropWhile (hq : ∀ tpc ∈ cache, q tpc → tpc.tpcBase + t ≤ bound)
    (h : StartsBelow t bound cache) : StartsBelow t bound (cache.dropWhile q) := by
  induction cache with
  | nil => trivial
  | cons tpc rest ih =>
    by_cases hp : q tpc
    · rw [dropWhile_cons_of_pos hp]
      exact ih (fun tpc' h' => hq tpc' (mem_cons_of_mem _ h'))
        (h.2 (hq tpc mem_cons_self hp))
    · rwa [dropWhile_cons_of_neg hp]

theorem StartsBelow.updateFirst (h : StartsBelow t bound cache) :
    StartsBelow t bound (updateFirst q f cache) := by
  induction cache with
  | nil => trivial
  | cons tpc rest ih =>
    by_cases hp : q tpc
    · rw [updateFirst_of_pos hp]
      exact h
    · rw [updateFirst_of_neg hp]
      exact ⟨h.1, fun hle => ih (h.2 hle)⟩

theorem StartsBelow.head (h : StartsBelow t bound cache) :
    ∀ tpc ∈ cache.head?, tpc.tpcBase ≤ bound := by
  intro tpc htpc
  cases cache with
  | nil => cases htpc
  | cons first rest =>
    cases htpc
    exact h.1

theorem Blocks.gapped (h : Blocks t b cache) (hb : t ∣ b) (limit : Nat) : Gapped t limit cache := by
  induction cache generalizing b with
  | nil => trivial
  | cons tpc rest ih =>
    obtain ⟨rfl, hrest⟩ := h
    refine ⟨hb, fun next hnext => ?_, ih hrest (Nat.dvd_add hb (Nat.dvd_refl t))⟩
    cases rest with
    | nil => cases hnext
    | cons first rest =>
      cases hnext
      exact .inl hrest.1

theorem Gapped.append (h : Gapped t limit cache) (hmore : Gapped t limit more)
    (hlast : ∀ tpc ∈ cache.getLast?, ∀ next ∈ more.head?,
      next.tpcBase = tpc.tpcBase + t ∨ tpc.tpcBase + t < limit) :
    Gapped t limit (cache ++ more) := by
  induction cache with
  | nil => exact hmore
  | cons tpc rest ih =>
    obtain ⟨hdvd, hnext, hrest⟩ := h
    cases rest with
    | nil => exact ⟨hdvd, hlast tpc rfl, hmore⟩
    | cons next rest =>
      exact ⟨hdvd, hnext, ih hrest (by simpa using hlast)⟩

theorem Gapped.dropWhile (h : Gapped t limit cache) : Gapped t limit (cache.dropWhile q) := by
  induction cache with
  | nil => trivial
  | cons tpc rest ih =>
    by_cases hp : q tpc
    · rw [dropWhile_cons_of_pos hp]
      exact ih h.2.2
    · rwa [dropWhile_cons_of_neg hp]

variable {tpc : TxPageCache}

theorem Gapped.dvd_base (h : Gapped t limit cache) (hmem : tpc ∈ cache) : t ∣ tpc.tpcBase := by
  induction cache with
  | nil => cases hmem
  | cons first rest ih =>
    obtain rfl | hmem := mem_cons.1 hmem
    · exact h.1
    · exact ih h.2.2 hmem

theorem head?_updateFirst :
    (updateFirst q f cache).head?.map TxPageCache.tpcBase = cache.head?.map
      TxPageCache.tpcBase := by
  cases cache with
  | nil => rfl
  | cons tpc rest =>
    unfold updateFirst
    split_ifs <;> rfl

theorem Gapped.updateFirst (h : Gapped t limit cache) : Gapped t limit (updateFirst q f cache) := by
  induction cache with
  | nil => trivial
  | cons tpc rest ih =>
    obtain ⟨hdvd, hnext, hrest⟩ := h
    by_cases hp : q tpc
    · rw [updateFirst_of_pos hp]
      exact ⟨hdvd, hnext, hrest⟩
    · rw [updateFirst_of_neg hp]
      refine ⟨hdvd, fun next hmem => ?_, ih hrest⟩
      have hbase : next.tpcBase ∈ rest.head?.map TxPageCache.tpcBase := by
        rw [← head?_updateFirst (q := q) (f := f)]
        exact Option.mem_map_of_mem _ hmem
      obtain ⟨next', hmem', heq⟩ := Option.mem_map.1 hbase
      rw [← heq]
      exact hnext next' hmem'

theorem Gapped.blocks (h : Gapped t limit (tpc :: rest))
    (hlim : limit ≤ tpc.tpcBase + t) : Blocks t tpc.tpcBase (tpc :: rest) := by
  induction rest generalizing tpc with
  | nil => exact ⟨rfl, trivial⟩
  | cons next rest ih =>
    obtain ⟨_, hnext, hrest⟩ := h
    have hb : next.tpcBase = tpc.tpcBase + t := by
      have := hnext next rfl
      omega
    refine ⟨rfl, ?_⟩
    rw [← hb]
    exact ih hrest (by omega)

theorem Gapped.contiguous (h : Gapped t limit cache) :
    Contiguous t (cache.dropWhile fun tpc => tpc.tpcBase + t < limit) := by
  have hdrop := h.dropWhile (q := fun tpc => tpc.tpcBase + t < limit)
  have hhead := head?_dropWhile_not (fun tpc : TxPageCache => tpc.tpcBase + t < limit) cache
  cases hl : cache.dropWhile fun tpc => tpc.tpcBase + t < limit with
  | nil => exact ⟨0, trivial⟩
  | cons tpc rest =>
    rw [hl] at hdrop hhead
    obtain ⟨k, hk⟩ := hdrop.1
    refine ⟨k, ?_⟩
    rw [Nat.mul_comm, ← hk]
    exact hdrop.blocks (by simpa using hhead)

theorem mem_dropWhile (h : tpc ∈ cache) (hq : ¬ q tpc) : tpc ∈ cache.dropWhile q := by
  induction cache with
  | nil => cases h
  | cons first rest ih =>
    by_cases hp : q first
    · rw [dropWhile_cons_of_pos hp]
      obtain rfl | h := mem_cons.1 h
      · exact absurd hp hq
      · exact ih h
    · rwa [dropWhile_cons_of_neg hp]

/-- Some block ends after `top`. -/
def Reaches (t top : Nat) (cache : List TxPageCache) : Prop :=
  ∃ tpc ∈ cache, top < tpc.tpcBase + t

variable {top : Nat}

theorem Reaches.dropWhile (h : Reaches t top cache)
    (hq : ∀ tpc, q tpc → tpc.tpcBase + t ≤ top) : Reaches t top (cache.dropWhile q) := by
  obtain ⟨tpc, hmem, htop⟩ := h
  exact ⟨tpc, mem_dropWhile hmem fun hp => absurd (hq tpc hp) (by omega), htop⟩

theorem Reaches.updateFirst (h : Reaches t top cache) : Reaches t top (updateFirst q f cache) := by
  induction cache with
  | nil => exact h
  | cons first rest ih =>
    obtain ⟨tpc, hmem, htop⟩ := h
    by_cases hp : q first
    · rw [updateFirst_of_pos hp]
      obtain rfl | hmem := mem_cons.1 hmem
      · exact ⟨_, mem_cons_self, htop⟩
      · exact ⟨tpc, mem_cons_of_mem _ hmem, htop⟩
    · rw [updateFirst_of_neg hp]
      obtain rfl | hmem := mem_cons.1 hmem
      · exact ⟨tpc, mem_cons_self, htop⟩
      · obtain ⟨tpc', hmem', htop'⟩ := ih ⟨tpc, hmem, htop⟩
        exact ⟨tpc', mem_cons_of_mem _ hmem', htop'⟩

theorem forall_mem_updateFirst {P : TxPageCache → Prop} (h : ∀ tpc ∈ cache, P tpc)
    (hf : ∀ tpc, cache.find? q = some tpc → P { tpc with tpcTransactions := f tpc.tpcTransactions
    }) :
    ∀ tpc ∈ updateFirst q f cache, P tpc := by
  induction cache with
  | nil => exact h
  | cons first rest ih =>
    by_cases hp : q first
    · rw [updateFirst_of_pos hp]
      rw [find?_cons_of_pos hp] at hf
      intro tpc htpc
      obtain rfl | htpc := mem_cons.1 htpc
      · exact hf first rfl
      · exact h tpc (mem_cons_of_mem _ htpc)
    · rw [updateFirst_of_neg hp]
      rw [find?_cons_of_neg hp] at hf
      intro tpc htpc
      obtain rfl | htpc := mem_cons.1 htpc
      · exact h tpc mem_cons_self
      · exact ih (fun tpc h' => h tpc (mem_cons_of_mem _ h')) hf tpc htpc

theorem Blocks.findBlock_holds {n : Nat} (h : Blocks t b cache) (hb : t ∣ b)
    (hbn : b ≤ n) (hfind : findBlock t n cache = some tpc) : tpc.Holds t n ∧ t ∣ tpc.tpcBase := by
  induction cache generalizing b with
  | nil => cases hfind
  | cons first rest ih =>
    obtain ⟨rfl, hrest⟩ := h
    unfold findBlock at hfind
    by_cases hp : n < first.tpcBase + t
    · rw [find?_cons_of_pos (by simpa using hp)] at hfind
      cases hfind
      exact ⟨⟨hbn, hp⟩, hb⟩
    · rw [find?_cons_of_neg (by simpa using hp)] at hfind
      exact ih hrest (Nat.dvd_add hb (Nat.dvd_refl t)) (by omega) hfind

structure Sound (dbb : Database) : Prop where
  transPerTIP_pos : 0 < dbb.transPerTIP
  four_dvd : 4 ∣ dbb.transPerTIP
  transPerTIP_lt : dbb.transPerTIP < 2 ^ 17
  hdrOldest_le : dbb.hdrOldestTransaction ≤ dbb.hdrNextTransaction
  dbbOldest_le : dbb.dbbOldestTransaction ≤ dbb.hdrNextTransaction
  hdrNext_lt : dbb.hdrNextTransaction < maxTraNumber

/-- The oldest transaction that the header or the process still looks at. -/
def Database.oldestInteresting (dbb : Database) : Nat :=
  max dbb.hdrOldestTransaction dbb.dbbOldestTransaction

variable {dbb : Database}

theorem agrees_of_page (hs : Sound dbb) {s : Nat}
    (hbase : tpc.tpcBase = s * dbb.transPerTIP)
    (hbytes : ∀ i < dbb.transPerTIP / 4, tpc.tpcTransactions i = dbb.tip s i) : Agrees dbb tpc := by
  intro n hn hold _
  have h4 := hs.four_dvd
  have hle : s * dbb.transPerTIP ≤ n := hbase ▸ hold.1
  have hlt : n - s * dbb.transPerTIP < dbb.transPerTIP := by
    have := hold.2
    omega
  have e : n = s * dbb.transPerTIP + (n - s * dbb.transPerTIP) := by omega
  have hdiv : n / dbb.transPerTIP = s := by
    conv_lhs => rw [e]
    exact mul_add_div_tip s hlt
  have hmod : n % dbb.transPerTIP = n - s * dbb.transPerTIP := by
    conv_lhs => rw [e]
    exact mul_add_mod_tip s hlt
  rw [tpc.state_eq_get (by rw [hbase]; exact h4.mul_left s) hold hn, tipState_eq_get h4, hdiv, hmod,
    hbase]
  unfold Crumb.get
  rw [hbytes _ (by omega)]

theorem agrees_tpcUpdateCache (hs : Sound dbb) (s : Nat)
    (h : ∀ tpc ∈ dbb.dbbTipCache, Agrees dbb tpc) :
    ∀ tpc ∈ (tpcUpdateCache dbb (dbb.tip s) s).dbbTipCache, Agrees dbb tpc := by
  have hlen : transOffset dbb.transPerTIP % 2 ^ 16 = dbb.transPerTIP / 4 := by
    have := hs.transPerTIP_lt
    unfold transOffset
    omega
  refine forall_mem_updateFirst (fun tpc htpc => h tpc ?_) fun tpc hfind => ?_
  · exact dropWhile_subset _ htpc
  · refine agrees_of_page hs (s := s) ?_ fun i hi => ?_
    · have hbase := find?_some hfind
      simp only [beq_iff_eq] at hbase
      exact hbase.symm
    · simp only [moveFast]
      rw [if_pos (by omega)]
      congr 1
      omega

theorem traGetInventory_rule {P : Database → Prop}
    (hstep : ∀ dbb s, P dbb → P (tpcUpdateCache dbb (dbb.tip s) s))
    (v : Option Bytes) (base top : Nat) (h : P dbb) : P (traGetInventory dbb v base top).dbb := by
  have hmove : ∀ (inv : Inventory) q s l, (inv.move q s l).dbb = inv.dbb := by
    intro inv q s l
    unfold Inventory.move
    split <;> rfl
  have hfirst : P (firstPage dbb v base top).dbb := by
    unfold firstPage
    rw [hmove]
    exact hstep _ _ h
  have hfold : ∀ (pages : List Nat) (inv : Inventory), P inv.dbb →
      P (pages.foldl (nextPage top) inv).dbb := by
    intro pages
    induction pages with
    | nil => exact fun inv h => h
    | cons s pages ih =>
      intro inv h
      refine ih _ ?_
      unfold nextPage
      rw [hmove]
      exact hstep _ _ h
  exact hfold _ _ hfirst

theorem allocateBlocks_blocks (top fuel b : Nat) :
    Blocks t b (allocateBlocks t top fuel b) := by
  induction fuel generalizing b with
  | zero => trivial
  | succ fuel ih =>
    unfold allocateBlocks
    split_ifs
    · exact ⟨rfl, trivial⟩
    · exact ⟨rfl, ih _⟩
    · trivial

theorem mem_allocateBlocks {fuel b : Nat}
    (h : tpc ∈ allocateBlocks t top fuel b) : tpc.tpcTransactions = fun _ => 0 := by
  induction fuel generalizing b with
  | zero => cases h
  | succ fuel ih =>
    unfold allocateBlocks at h
    split_ifs at h
    · obtain rfl | h := mem_cons.1 h
      · rfl
      · cases h
    · obtain rfl | h := mem_cons.1 h
      · rfl
      · exact ih h
    · cases h

theorem allocateBlocks_reaches (ht : t ≤ maxTraNumber) (htop : top < maxTraNumber)
    (fuel b : Nat) (hb : b ≤ top) (hfuel : top < b + fuel * t) :
    Reaches t top (allocateBlocks t top fuel b) := by
  induction fuel generalizing b with
  | zero => omega
  | succ fuel ih =>
    unfold allocateBlocks
    rw [if_pos hb]
    by_cases hlast : top < b + t
    · exact ⟨_, mem_cons_self, hlast⟩
    · rw [if_neg (by omega)]
      rw [Nat.add_mul, Nat.one_mul] at hfuel
      obtain ⟨tpc, hmem, h⟩ := ih (b + t) (by omega) (by omega)
      exact ⟨tpc, mem_cons_of_mem _ hmem, h⟩

theorem agrees_new (hs : Sound dbb)
    (hb : dbb.transPerTIP ∣ tpc.tpcBase) (h : tpc.tpcTransactions = fun _ => 0) :
    Agrees dbb tpc := by
  intro n hn hold hfinal
  have hstate : tpc.state n = .active := by
    rw [tpc.state_eq_get (hs.four_dvd.trans hb) hold hn, h]
    simp [Crumb.get, TraState.ofBits]
  rw [hstate] at hfinal
  rcases hfinal with h | h <;> cases h

/-- The states the cache goes through while `TRA_get_inventory` reads the pages. -/
structure Filling (dbb dbb' : Database) : Prop where
  same : dbb' = { dbb with dbbTipCache := dbb'.dbbTipCache }
  gapped : Gapped dbb.transPerTIP dbb.hdrOldestTransaction dbb'.dbbTipCache
  agrees : ∀ tpc ∈ dbb'.dbbTipCache, Agrees dbb tpc

variable {dbb' : Database}

theorem Filling.tpcUpdateCache (hs : Sound dbb) (h : Filling dbb dbb') (s : Nat) :
    Filling dbb (tpcUpdateCache dbb' (dbb'.tip s) s) := by
  obtain ⟨hsame, hgap, hagree⟩ := h
  generalize dbb'.dbbTipCache = cache at *
  subst hsame
  refine ⟨rfl, hgap.dropWhile.updateFirst, ?_⟩
  have hs' : Sound { dbb with dbbTipCache := cache } := ⟨hs.1, hs.2, hs.3, hs.4, hs.5, hs.6⟩
  exact agrees_tpcUpdateCache hs' s hagree

/-- `bound` is not in the way of the blocks that `dbb_oldest_transaction` has passed. -/
def Passed (dbb : Database) (bound : Nat) : Prop :=
  ∀ b, dbb.transPerTIP ∣ b → b ≤ dbb.dbbOldestTransaction → b ≤ bound

theorem Filling.startsBelow (h : Filling dbb dbb') (hp : Passed dbb bound)
    (hb : StartsBelow dbb.transPerTIP bound dbb'.dbbTipCache) (s : Nat) :
    StartsBelow dbb.transPerTIP bound (Tpc.tpcUpdateCache dbb' (dbb'.tip s) s).dbbTipCache := by
  obtain ⟨hsame, hgap, _⟩ := h
  generalize dbb'.dbbTipCache = cache at *
  subst hsame
  refine (hb.dropWhile fun tpc hmem hq => ?_).updateFirst
  exact hp _ (Nat.dvd_add (hgap.dvd_base hmem) (Nat.dvd_refl _)) (by simpa using hq)

theorem Filling.reaches (hs : Sound dbb) (h : Filling dbb dbb')
    (hr : Reaches dbb.transPerTIP dbb.hdrNextTransaction dbb'.dbbTipCache) (s : Nat) :
    Reaches dbb.transPerTIP dbb.hdrNextTransaction
      (Tpc.tpcUpdateCache dbb' (dbb'.tip s) s).dbbTipCache := by
  have hle := hs.dbbOldest_le
  obtain ⟨hsame, _, _⟩ := h
  generalize dbb'.dbbTipCache = cache at *
  subst hsame
  refine (hr.dropWhile fun tpc hq => ?_).updateFirst
  simp only [decide_eq_true_eq] at hq
  omega

/-- Where `cache_transactions` is called to start: at the end of the cache. -/
def AtEnd (dbb : Database) (oldest : Nat) : Prop :=
  (dbb.dbbTipCache = [] → oldest = 0) ∧
    ∀ last ∈ dbb.dbbTipCache.getLast?, oldest = last.tpcBase + dbb.transPerTIP

section Extend

variable {dbb : Database} {oldest : Nat}

theorem filling_append (hs : Sound dbb) (hc : Contiguous dbb.transPerTIP dbb.dbbTipCache)
    (ha : ∀ tpc ∈ dbb.dbbTipCache, Agrees dbb tpc) (he : AtEnd dbb oldest) (top fuel : Nat) :
    Filling dbb { dbb with
      dbbTipCache := dbb.dbbTipCache ++ allocateBlocks dbb.transPerTIP top fuel
        (max oldest dbb.hdrOldestTransaction -
          max oldest dbb.hdrOldestTransaction % dbb.transPerTIP) } := by
  set start := max oldest dbb.hdrOldestTransaction -
    max oldest dbb.hdrOldestTransaction % dbb.transPerTIP with hstart
  have hdvd : dbb.transPerTIP ∣ start := Nat.dvd_sub_mod _
  obtain ⟨k, hk⟩ := hc
  have hblocks := allocateBlocks_blocks (t := dbb.transPerTIP) top fuel start
  refine ⟨rfl, (hk.gapped (Nat.dvd_mul_left _ _) _).append (hblocks.gapped hdvd _) ?_, ?_⟩
  · intro last hlast next hnext
    have hoff := he.2 last hlast
    have hbase : next.tpcBase = start := by
      cases hl : allocateBlocks dbb.transPerTIP top fuel start with
      | nil => rw [hl] at hnext; cases hnext
      | cons first rest =>
        rw [hl] at hnext hblocks
        cases hnext
        exact hblocks.1
    have hlastd : dbb.transPerTIP ∣ last.tpcBase :=
      (hk.gapped (Nat.dvd_mul_left _ _) 0).dvd_base (mem_of_getLast? hlast)
    rw [hbase]
    by_cases hle : dbb.hdrOldestTransaction ≤ oldest
    · left
      rw [hstart, Nat.max_eq_left hle, hoff,
        Nat.mod_eq_zero_of_dvd (Nat.dvd_add hlastd (Nat.dvd_refl _)), Nat.sub_zero]
    · right
      omega
  · intro tpc hmem
    obtain hmem | hmem := mem_append.1 hmem
    · exact ha tpc hmem
    · exact agrees_new hs ((hblocks.gapped hdvd 0).dvd_base hmem) (mem_allocateBlocks hmem)

theorem cacheTransactions_filling (hs : Sound dbb) (hc : Contiguous dbb.transPerTIP dbb.dbbTipCache)
    (ha : ∀ tpc ∈ dbb.dbbTipCache, Agrees dbb tpc) (he : AtEnd dbb oldest) :
    (cacheTransactions dbb oldest).2 =
        { dbb with dbbTipCache := (cacheTransactions dbb oldest).2.dbbTipCache } ∧
      Contiguous dbb.transPerTIP (cacheTransactions dbb oldest).2.dbbTipCache ∧
      ∀ tpc ∈ (cacheTransactions dbb oldest).2.dbbTipCache, Agrees dbb tpc := by
  have h := traGetInventory_rule (P := Filling dbb) (fun d s hd => hd.tpcUpdateCache hs s)
    none (max oldest dbb.hdrOldestTransaction) dbb.hdrNextTransaction
    (filling_append hs hc ha he dbb.hdrNextTransaction
      (dbb.hdrNextTransaction / dbb.transPerTIP + 1))
  refine ⟨?_, h.gapped.contiguous, fun tpc hmem => h.agrees tpc (dropWhile_subset _ hmem)⟩
  conv_lhs => unfold cacheTransactions
  dsimp only
  rw [h.same]
  rfl

theorem startsBelow_append (hc : StartsBelow dbb.transPerTIP bound dbb.dbbTipCache)
    (hb : dbb.hdrOldestTransaction ≤ bound) (he : AtEnd dbb oldest) (top fuel : Nat) :
    StartsBelow dbb.transPerTIP bound (dbb.dbbTipCache ++ allocateBlocks dbb.transPerTIP top fuel
      (max oldest dbb.hdrOldestTransaction -
        max oldest dbb.hdrOldestTransaction % dbb.transPerTIP)) := by
  have hblocks := allocateBlocks_blocks (t := dbb.transPerTIP) top fuel
    (max oldest dbb.hdrOldestTransaction - max oldest dbb.hdrOldestTransaction % dbb.transPerTIP)
  refine hc.append (fun last hlast hle => ?_) fun hnil => ?_
  · have := he.2 last hlast
    exact hblocks.startsBelow (by omega)
  · have := he.1 hnil
    exact hblocks.startsBelow (by omega)

theorem cacheTransactions_startsBelow (hs : Sound dbb)
    (hc : Contiguous dbb.transPerTIP dbb.dbbTipCache) (ha : ∀ tpc ∈ dbb.dbbTipCache, Agrees dbb tpc)
    (he : AtEnd dbb oldest) (hp : Passed dbb bound) (hb : dbb.hdrOldestTransaction ≤ bound)
    (hfirst : StartsBelow dbb.transPerTIP bound dbb.dbbTipCache) :
    StartsBelow dbb.transPerTIP bound (cacheTransactions dbb oldest).2.dbbTipCache := by
  have h := traGetInventory_rule
    (P := fun d => Filling dbb d ∧ StartsBelow dbb.transPerTIP bound d.dbbTipCache)
    (fun d s hd => ⟨hd.1.tpcUpdateCache hs s, hd.1.startsBelow hp hd.2 s⟩)
    none (max oldest dbb.hdrOldestTransaction) dbb.hdrNextTransaction
    ⟨filling_append hs hc ha he dbb.hdrNextTransaction
      (dbb.hdrNextTransaction / dbb.transPerTIP + 1), startsBelow_append hfirst hb he _ _⟩
  refine h.2.dropWhile fun tpc _ hq => ?_
  simp only [decide_eq_true_eq] at hq
  omega

theorem cacheTransactions_reaches (hs : Sound dbb)
    (hc : Contiguous dbb.transPerTIP dbb.dbbTipCache) (ha : ∀ tpc ∈ dbb.dbbTipCache, Agrees dbb tpc)
    (he : AtEnd dbb oldest) (hle : oldest ≤ dbb.hdrNextTransaction) :
    Reaches dbb.transPerTIP dbb.hdrNextTransaction
      (cacheTransactions dbb oldest).2.dbbTipCache := by
  have hold := hs.hdrOldest_le
  have ht : dbb.transPerTIP ≤ maxTraNumber := by
    have := hs.transPerTIP_lt
    unfold maxTraNumber
    omega
  have hnext : dbb.hdrNextTransaction <
      (dbb.hdrNextTransaction / dbb.transPerTIP + 1) * dbb.transPerTIP :=
    Nat.lt_mul_of_div_lt (Nat.lt_succ_self _) hs.transPerTIP_pos
  obtain ⟨tpc, hmem, htop⟩ := allocateBlocks_reaches ht hs.hdrNext_lt
    (dbb.hdrNextTransaction / dbb.transPerTIP + 1)
    (max oldest dbb.hdrOldestTransaction - max oldest dbb.hdrOldestTransaction % dbb.transPerTIP)
    (by omega) (by omega)
  have h := traGetInventory_rule
    (P := fun d => Filling dbb d ∧ Reaches dbb.transPerTIP dbb.hdrNextTransaction d.dbbTipCache)
    (fun d s hd => ⟨hd.1.tpcUpdateCache hs s, hd.1.reaches hs hd.2 s⟩)
    none (max oldest dbb.hdrOldestTransaction) dbb.hdrNextTransaction
    ⟨filling_append hs hc ha he dbb.hdrNextTransaction
      (dbb.hdrNextTransaction / dbb.transPerTIP + 1),
      ⟨tpc, mem_append_right _ hmem, htop⟩⟩
  refine h.2.dropWhile fun tpc hq => ?_
  simp only [decide_eq_true_eq] at hq
  omega

end Extend

end Firebird.Jrd.Tpc
