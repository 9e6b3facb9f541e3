import LogoEngine.Heap.Ledger
import Mathlib.Algebra.BigOperators.Ring.List
import Mathlib.Algebra.Order.BigOperators.Group.List
import Mathlib.Algebra.Order.Floor.Div
import Mathlib.Order.Bounds.Basic

/-!
# The ledger balances

The books are kept by two entries, one for an object that is made and one for an object that is given
up. If nothing is given up that was not made, the counts of each kind balance at every moment, and
the pages of a kind are just enough for the most objects of the kind that were ever alive together.

Main statement: `Ledger.ofBookings_balances`.
-/

namespace LogoEngine

/-- An entry of the books. -/
inductive Booking where
  | acquire (kind : Kind)
  | release (kind : Kind)
deriving DecidableEq

/-- The histories in which every object that is given up was made before, kind by kind. -/
def Matched (history : List Booking) : Prop :=
  ∀ earlier, earlier <+: history → ∀ kind,
    earlier.count (.release kind) ≤ earlier.count (.acquire kind)

theorem Matched.of_prefix {earlier history : List Booking} (h : Matched history)
    (hearlier : earlier <+: history) : Matched earlier :=
  fun first hfirst => h first (hfirst.trans hearlier)

theorem Matched.concat {history : List Booking} {b : Booking} (h : Matched history)
    (hb : ∀ kind, b = .release kind →
      history.count (.release kind) < history.count (.acquire kind)) :
    Matched (history ++ [b]) := by
  intro earlier hearlier kind
  rcases List.prefix_concat_iff.mp hearlier with rfl | hbefore
  · have hcount := h history List.prefix_rfl kind
    rw [List.count_append, List.count_append]
    by_cases hrelease : b = .release kind
    · have hless := hb kind hrelease
      rw [hrelease, List.count_singleton_self]
      omega
    · rw [List.count_singleton, if_neg (by simpa using hrelease)]
      omega
  · exact h earlier hbefore kind

/-! ### Kinds and their counters -/

theorem Kind.getElem?_all_index (kind : Kind) : Kind.all[kind.index.val]? = some kind := by
  cases kind <;> rfl

theorem Kind.index_injective : Function.Injective Kind.index := by
  intro k k' h
  have hk := k.getElem?_all_index
  rw [h, k'.getElem?_all_index] at hk
  exact (Option.some.inj hk).symm

namespace KindStats

/-- A page is added just when the live objects outgrow the most that were alive before. -/
theorem pages_acquire {s : KindStats} {peak : Nat} (hpages : s.pages = peak ⌈/⌉ pageSize)
    (hlive : s.live ≤ peak) : s.acquire.pages = max s.acquire.live peak ⌈/⌉ pageSize := by
  rw [Nat.ceilDiv_eq_add_pred_div] at hpages ⊢
  dsimp only [acquire]
  split
  all_goals
    simp only [pageSize] at *
    omega

end KindStats

namespace Ledger

/-- Makes an entry. -/
def book (l : Ledger) : Booking → Ledger
  | .acquire kind => l.acquire kind
  | .release kind => l.release kind

/-- The ledger after the given entries, the first one first, in empty books. -/
def ofBookings (history : List Booking) : Ledger :=
  history.foldl book {}

/-- The counters of a kind after the given entries. -/
def counters (history : List Booking) (kind : Kind) : KindStats :=
  (ofBookings history).stats kind

variable {history earlier : List Booking} {kind : Kind}

theorem counters_nil (kind : Kind) : counters [] kind = {} := by
  simp [counters, ofBookings, stats]

theorem stats_set (l : Ledger) (k kind : Kind) (s : KindStats) :
    (Ledger.mk (l.kinds.set k.index s k.index.isLt)).stats kind =
      if kind = k then s else l.stats kind := by
  simp [stats, Vector.getElem_set, Fin.val_inj, Kind.index_injective.eq_iff, eq_comm]

theorem stats_book (l : Ledger) (b : Booking) (kind : Kind) : (l.book b).stats kind =
    if b = .acquire kind then (l.stats kind).acquire
    else if b = .release kind then (l.stats kind).release else l.stats kind := by
  cases b with
  | acquire k =>
    rw [book, acquire, stats_set]
    by_cases h : kind = k <;> simp [h, eq_comm]
  | release k =>
    rw [book, release, stats_set]
    by_cases h : kind = k <;> simp [h, eq_comm]

/-- An entry changes the counters of its own kind. -/
theorem counters_concat (history : List Booking) (b : Booking) (kind : Kind) :
    counters (history ++ [b]) kind =
      if b = .acquire kind then (counters history kind).acquire
      else if b = .release kind then (counters history kind).release
      else counters history kind := by
  rw [counters, ofBookings, List.foldl_append]
  exact stats_book _ _ _

/-! ### Counts -/

/-- Every entry is counted once. -/
theorem counters_eq_count (history : List Booking) (kind : Kind) :
    (counters history kind).acquired = history.count (.acquire kind) ∧
      (counters history kind).released = history.count (.release kind) := by
  induction history using List.reverseRecOn with
  | nil => rw [counters_nil]; exact ⟨rfl, rfl⟩
  | append_singleton history b ih =>
    rw [counters_concat, List.count_append, List.count_append, List.count_singleton,
      List.count_singleton, ← ih.1, ← ih.2]
    split
    · next h => simp [h, KindStats.acquire]
    · next hacquire =>
      split
      · next hrelease => simp [hrelease, KindStats.release]
      · next hrelease => simp [hacquire, hrelease]

/-- What is given up in matched books was alive, where the counts balanced before. -/
theorem live_pos (h : Matched (history ++ [.release kind]))
    (hbalance : (counters history kind).live + (counters history kind).released =
      (counters history kind).acquired) : 0 < (counters history kind).live := by
  have hcount := h _ List.prefix_rfl kind
  rw [List.count_append, List.count_append, List.count_singleton_self, List.count_singleton,
    if_neg (by simp), ← (counters_eq_count history kind).1,
    ← (counters_eq_count history kind).2] at hcount
  omega

theorem live_add_released (h : Matched history) (kind : Kind) :
    (counters history kind).live + (counters history kind).released =
      (counters history kind).acquired := by
  induction history using List.reverseRecOn with
  | nil => rw [counters_nil]; rfl
  | append_singleton history b ih =>
    have hbalance := ih (h.of_prefix (List.prefix_append history [b]))
    rw [counters_concat]
    split
    · dsimp only [KindStats.acquire]
      omega
    · split
      · next hb =>
        subst hb
        have hlive := live_pos h hbalance
        dsimp only [KindStats.release]
        omega
      · exact hbalance

/-! ### Pages -/

/-- How many objects of a kind were alive, at one moment or another. -/
def liveCounts (history : List Booking) (kind : Kind) : Set Nat :=
  {n | ∃ earlier, earlier <+: history ∧ (counters earlier kind).live = n}

theorem live_mem_liveCounts (history : List Booking) (kind : Kind) :
    (counters history kind).live ∈ liveCounts history kind :=
  ⟨history, List.prefix_rfl, rfl⟩

theorem liveCounts_mono (h : earlier <+: history) (kind : Kind) :
    liveCounts earlier kind ⊆ liveCounts history kind :=
  fun _ ⟨first, hfirst, hlive⟩ => ⟨first, hfirst.trans h, hlive⟩

theorem liveCounts_nil (kind : Kind) : liveCounts [] kind = {0} := by
  ext n
  simp [liveCounts, counters_nil, eq_comm]

theorem liveCounts_concat (history : List Booking) (b : Booking) (kind : Kind) :
    liveCounts (history ++ [b]) kind =
      insert (counters (history ++ [b]) kind).live (liveCounts history kind) := by
  ext n
  simp only [liveCounts, List.prefix_concat_iff, or_and_right, exists_or, exists_eq_left,
    Set.mem_insert_iff, Set.mem_ofPred_eq, eq_comm]

/-- The pages are what the most objects ever alive together fill, rounded up. -/
theorem exists_peak (history : List Booking) (kind : Kind) :
    ∃ peak, IsGreatest (liveCounts history kind) peak ∧
      (counters history kind).pages = peak ⌈/⌉ pageSize := by
  induction history using List.reverseRecOn with
  | nil =>
    refine ⟨0, ?_, ?_⟩
    · rw [liveCounts_nil]
      exact isGreatest_singleton
    · rw [counters_nil, zero_ceilDiv]
  | append_singleton history b ih =>
    obtain ⟨peak, hpeak, hpages⟩ := ih
    have hlive : (counters history kind).live ≤ peak :=
      hpeak.2 (live_mem_liveCounts history kind)
    refine ⟨_, liveCounts_concat history b kind ▸ hpeak.insert _, ?_⟩
    rw [counters_concat]
    split
    · exact KindStats.pages_acquire hpages hlive
    · split
      · have hless : (counters history kind).release.live ≤ peak :=
          (Nat.sub_le _ _).trans hlive
        rw [max_eq_right hless]
        exact hpages
      · rwa [max_eq_right hlive]

theorem pageSize_pos : 0 < pageSize := Nat.succ_pos _

/-- The live objects always fit on the pages, those of earlier moments too. -/
theorem le_pageSize_mul_pages {n : Nat} (h : n ∈ liveCounts history kind) :
    n ≤ pageSize * (counters history kind).pages := by
  obtain ⟨peak, hpeak, hpages⟩ := exists_peak history kind
  exact (hpeak.2 h).trans ((ceilDiv_le_iff_le_mul pageSize_pos).mp hpages.ge)

/-- Fewer pages would have been too few at some moment. -/
theorem exists_pageSize_mul_lt {n : Nat} (h : n < (counters history kind).pages) :
    ∃ live ∈ liveCounts history kind, pageSize * n < live := by
  obtain ⟨peak, hpeak, hpages⟩ := exists_peak history kind
  rw [hpages, ← not_le, ceilDiv_le_iff_le_mul pageSize_pos, not_le] at h
  exact ⟨peak, hpeak.1, h⟩

/-- Pages never shrink. -/
theorem pages_mono (h : earlier <+: history) (kind : Kind) :
    (counters earlier kind).pages ≤ (counters history kind).pages := by
  by_contra hless
  obtain ⟨live, hlive, hlt⟩ := exists_pageSize_mul_lt (not_le.mp hless)
  exact hlt.not_ge (le_pageSize_mul_pages (liveCounts_mono h kind hlive))

/-! ### Totals -/

theorem total_eq_sum (l : Ledger) (counter : KindStats → Nat) :
    l.total counter = (Kind.all.map fun kind => counter (l.stats kind)).sum := by
  simp [total, Kind.all, Nat.add_assoc]

theorem total_add (l : Ledger) (counter counter' : KindStats → Nat) :
    l.total counter + l.total counter' = l.total fun s => counter s + counter' s := by
  simp only [total_eq_sum, List.sum_map_add]

theorem total_congr {l : Ledger} {counter counter' : KindStats → Nat}
    (h : ∀ kind, counter (l.stats kind) = counter' (l.stats kind)) :
    l.total counter = l.total counter' := by
  simp only [total_eq_sum, h]

/-! ### Balanced books -/

/-- The books after a history of entries, kind by kind and in total. -/
structure Balances (history : List Booking) : Prop where
  acquired : ∀ kind, (counters history kind).acquired = history.count (.acquire kind)
  released : ∀ kind, (counters history kind).released = history.count (.release kind)
  live : ∀ kind, (counters history kind).live + (counters history kind).released =
    (counters history kind).acquired
  room : ∀ kind, (counters history kind).live ≤ pageSize * (counters history kind).pages
  pages : ∀ kind, ∃ peak, IsGreatest (liveCounts history kind) peak ∧
    (counters history kind).pages = peak ⌈/⌉ pageSize
  /-- Pages never shrink. -/
  kept : ∀ kind earlier, earlier <+: history →
    (counters earlier kind).pages ≤ (counters history kind).pages
  /-- With fewer pages there was a moment when the live objects did not fit. -/
  needed : ∀ kind n, n < (counters history kind).pages → ∃ earlier,
    earlier <+: history ∧ pageSize * n < (counters earlier kind).live
  total : (ofBookings history).total KindStats.live + (ofBookings history).total KindStats.released =
    (ofBookings history).total KindStats.acquired
  totalRoom : (ofBookings history).total KindStats.live ≤
    pageSize * (ofBookings history).total KindStats.pages

theorem balances_of_matched (h : Matched history) : Balances history where
  acquired kind := (counters_eq_count history kind).1
  released kind := (counters_eq_count history kind).2
  live := live_add_released h
  room kind := le_pageSize_mul_pages (live_mem_liveCounts history kind)
  pages := exists_peak history
  kept kind _ hearlier := pages_mono hearlier kind
  needed kind n hn := by
    obtain ⟨live, ⟨earlier, hearlier, rfl⟩, hlt⟩ := exists_pageSize_mul_lt hn
    exact ⟨earlier, hearlier, hlt⟩
  total := by
    rw [total_add]
    exact total_congr fun kind => live_add_released h kind
  totalRoom := by
    rw [total_eq_sum, total_eq_sum, ← List.sum_map_mul_left]
    exact List.sum_le_sum fun kind _ =>
      le_pageSize_mul_pages (live_mem_liveCounts history kind)

/-- **The ledger balances.** If in a history every object that is given up was made before, then an
object of its kind is alive whenever one is given up, and after each entry the live objects of each
kind are those that were made less those that were given up, and fit on the pages of the kind. The
pages are the most objects of the kind ever alive so far, divided by the size of a page and rounded
up, so they never shrink and none is added before it is needed. The totals balance as well. -/
theorem ofBookings_balances (h : Matched history) :
    (∀ earlier kind, earlier ++ [.release kind] <+: history →
      0 < (counters earlier kind).live) ∧
    ∀ earlier, earlier <+: history → Balances earlier := by
  refine ⟨fun earlier kind hrelease => ?_,
    fun earlier hearlier => balances_of_matched (h.of_prefix hearlier)⟩
  have hmatched : Matched (earlier ++ [.release kind]) := h.of_prefix hrelease
  exact live_pos hmatched (live_add_released (hmatched.of_prefix (List.prefix_append _ _)) kind)

namespace SecondPage

/-- One word more than a page holds, and a list. -/
def made : List Booking :=
  List.replicate 257 (.acquire .word) ++ [.acquire .list]

/-- Two of the words are given up. -/
def entries : List Booking :=
  made ++ [.release .word] ++ [.release .word]

theorem matched_made : Matched made := by
  refine Matched.concat (fun earlier hearlier kind => ?_) nofun
  have hnone : .release kind ∉ earlier := fun hmem =>
    Booking.noConfusion (List.eq_of_mem_replicate (hearlier.subset hmem))
  rw [List.count_eq_zero.mpr hnone]
  exact Nat.zero_le _

theorem matched_entries : Matched entries := by
  refine (matched_made.concat fun kind heq => ?_).concat fun kind heq => ?_
  all_goals
    cases heq
    decide +kernel

/-- The second page stays when it is not needed any more. -/
theorem balances_entries : Matched entries ∧
    counters entries .word = ⟨255, 257, 2, 2⟩ ∧
    counters entries .list = ⟨1, 1, 0, 1⟩ ∧
    (∀ earlier kind, earlier ++ [.release kind] <+: entries →
      0 < (counters earlier kind).live) ∧
    ∀ earlier, earlier <+: entries → Balances earlier :=
  ⟨matched_entries, by decide +kernel, by decide +kernel, ofBookings_balances matched_entries⟩

end SecondPage

end Ledger

end LogoEngine
