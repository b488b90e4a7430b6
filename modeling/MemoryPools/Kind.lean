import MemoryPools.BookCount
import MemoryPools.Shows
import MemoryPools.Handles
import MemoryPools.Interleave.Call

/-!
# Kinds of pools

What a program that runs alone needs of a `Pool`, an `Arena` or a `SharedArena`, and what
it may rely on: every call returns, and does to the book of the pool what its name says.
-/

namespace MemoryPools

open Interleave

inductive AllocKind
  | alloc
  | allocRc
  | allocArc
  deriving DecidableEq

/-- The calls take the number of operations that they are given. -/
structure Kind (σ : Type) where
  withCapacity : Nat → σ
  findPlace : Nat → σ → σ × Control Unit Block
  -- the pool exists, or not any more
  dropBlock : Bool → Block → Nat → σ → σ × Control Unit Unit
  shrunk : Type
  shrinkToFit : Nat → σ → σ × Control Unit shrunk
  release : Nat → σ → σ × Control Unit Unit
  stats : Nat → σ → σ × Control Unit (Nat × Nat)
  handle : AllocKind → Option HandleKind
  view : σ → View
  -- no call is in progress
  Quiet : σ → Prop
  -- a page goes back to the free list, or to the pending one
  onFree : Bool
  -- unused pages are kept for a while
  parks : Bool

/-- A page holds 63 blocks, each of them with a tagged pointer and a counter. -/
def pageBytes : Nat := 63 * 16

def handleBytes : Nat := 8

/-- The pages that fit in the memory of a 64-bit target. -/
def maxPages : Nat := 2 ^ 64 / pageBytes

namespace Kind

variable {σ : Type} (K : Kind σ)

structure Alive (a : σ) (b : Book) : Prop where
  tidy : b.Tidy
  shows : (K.view a).Shows b
  quiet : K.Quiet a

section
variable {K} {a : σ} {b : Book}

theorem Alive.pages_eq (h : K.Alive a b) :
    (K.view a).size - (K.view a).freed.length = b.listed.length + b.parked.length := by
  have hsize := h.shows.size_eq h.tidy
  omega

theorem Alive.length_listed_le (h : K.Alive a b)
    (hfits : pageBytes * ((K.view a).size - (K.view a).freed.length) ≤ 2 ^ 64) :
    b.listed.length ≤ maxPages := by
  rw [h.pages_eq] at hfits
  unfold maxPages
  rw [Nat.le_div_iff_mul_le (by decide)]
  unfold pageBytes at hfits ⊢
  omega

end

structure Lawful : Prop where
  start : ∀ cap, ∃ pages, K.Alive (K.withCapacity cap) (.start pages) ∧
    pages.length = pagesFor cap
  findPlace : ∀ {a b}, K.Alive a b → b.listed.length ≤ maxPages → ∃ n b' p i rest a',
    Book.Fetch b n b' ∧ b'.free = p :: rest ∧ i < 63 ∧ (p, i) ∉ b'.live ∧
      Completes K.findPlace a a' (p, i) ∧ K.Alive a' (b'.take (p, i)) ∧
      (K.view a').size = (K.view a).size + n
  dropBlock : ∀ {a b x}, K.Alive a b → x ∈ b.live → ∃ a', Completes (K.dropBlock true x) a a' () ∧
    K.Alive a' (b.give K.onFree x) ∧ (K.view a').size = (K.view a).size
  shrinkToFit : ∀ {a b}, K.Alive a b → b.listed.length ≤ maxPages → ∃ a' r,
    Completes K.shrinkToFit a a' r ∧ K.Alive a' (b.shrink K.parks) ∧
      (K.view a').size = (K.view a).size
  release : ∀ {a b}, K.Alive a b → ∃ a', Completes K.release a a' () ∧
    (K.view a').Leftover b.live ∧ (K.view a').size = (K.view a).size
  dropLast : ∀ {a live x}, (K.view a).Leftover live → x ∈ live → ∃ a',
    Completes (K.dropBlock false x) a a' () ∧ (K.view a').Leftover (live.erase x) ∧
      (K.view a').size = (K.view a).size
  stats : ∀ {a b}, K.Alive a b →
    Completes K.stats a a (b.live.length, 63 * b.listed.length - b.live.length)

/-! ## From one iteration to the call -/

section
variable {K} {κ ρ : Type} {a : σ} {b : Book}

/-- `find_place` unlinks the full pages at the front of the free list. -/
theorem pops {step : σ → κ → σ × Control κ ρ} {pc : κ}
    (hpop : ∀ {a b p rest}, K.Alive a b → b.free = p :: rest → b.full p = true →
      ∃ a', Goes step a pc a' pc ∧ K.Alive a' { b with free := rest } ∧
        (K.view a').size = (K.view a).size) (h : K.Alive a b) :
    ∃ a', Goes step a pc a' pc ∧ K.Alive a' { b with free := b.free.dropWhile b.full } ∧
      (K.view a').size = (K.view a).size := by
  generalize hl : b.free = l
  induction l generalizing a b with
  | nil =>
    rw [List.dropWhile_nil, ← hl]
    exact ⟨a, .refl, h, rfl⟩
  | cons p rest ih =>
    rw [List.dropWhile_cons]
    by_cases hp : b.full p = true
    · rw [if_pos hp]
      obtain ⟨a₁, hgoes, hk, hsize⟩ := hpop h hl hp
      obtain ⟨a', hgoes', hk', hsize'⟩ := ih hk rfl
      exact ⟨a', hgoes.trans hgoes', hk', hsize'.trans hsize⟩
    · rw [if_neg hp, ← hl]
      exact ⟨a, .refl, h, rfl⟩

theorem finds {step : σ → κ → σ × Control κ Block} {pc : κ}
    (hpop : ∀ {a b p rest}, K.Alive a b → b.free = p :: rest → b.full p = true →
      ∃ a', Goes step a pc a' pc ∧ K.Alive a' { b with free := rest } ∧
        (K.view a').size = (K.view a).size)
    (htake : ∀ {a b p rest}, K.Alive a b → b.free = p :: rest → b.full p = false →
      ∃ i a', i < 63 ∧ (p, i) ∉ b.live ∧ Returns step a pc a' (p, i) ∧
        K.Alive a' (b.take (p, i)) ∧ (K.view a').size = (K.view a).size)
    (hempty : ∀ {a b}, K.Alive a b → b.free = [] → b.listed.length ≤ maxPages →
      ∃ n b' a', Book.Fetch b n b' ∧ Goes step a pc a' pc ∧ K.Alive a' b' ∧
        (K.view a').size = (K.view a).size + n)
    (h : K.Alive a b) (hlen : b.listed.length ≤ maxPages) :
    ∃ n b' p i rest a', Book.Fetch b n b' ∧ b'.free = p :: rest ∧ i < 63 ∧ (p, i) ∉ b'.live ∧
      Completes (bounded step pc) a a' (p, i) ∧ K.Alive a' (b'.take (p, i)) ∧
      (K.view a').size = (K.view a).size + n := by
  obtain ⟨a₁, hgoes, hk, hsize⟩ := pops hpop h
  have hfetch : ∃ n b' a', Book.Fetch b n b' ∧ Goes step a₁ pc a' pc ∧ K.Alive a' b' ∧
      (K.view a').size = (K.view a₁).size + n := by
    by_cases hall : b.free.dropWhile b.full = []
    · obtain ⟨n, b', a', hf, hrest⟩ := hempty hk hall hlen
      exact ⟨n, b', a', hf.of_dropped hall, hrest⟩
    · exact ⟨0, _, a₁, .found hall, .refl, hk, rfl⟩
  obtain ⟨n, b', a₂, hf, hgoes', hk', hsize'⟩ := hfetch
  obtain ⟨p, rest, hfree, hroom⟩ := h.tidy.fetched hf
  obtain ⟨i, a', hi, hnew, hret, htaken, hsize''⟩ := htake hk' hfree hroom
  refine ⟨n, b', p, i, rest, a', hf, hfree, hi, hnew, ?_, htaken, ?_⟩
  · exact ((hgoes.trans hgoes').returns hret).completes
  · rw [hsize'', hsize', hsize]

/-- The walk along all pages that gives each of them up. -/
theorem leaves {step : σ → κ → σ × Control κ Unit} (pc : Addr → κ) {done : List Addr} {v : View}
    {rest : List Addr} {p : Addr}
    (hstep : ∀ {a done p}, v.Left b done (K.view a) → p ∈ b.listed → p ∉ done →
      ∃ a', v.Left b (done ++ [p]) (K.view a') ∧
        (∀ q, v.next p = some q → Goes step a (pc p) a' (pc q)) ∧
        (v.next p = none → Returns step a (pc p) a' ()))
    (h : v.Left b done (K.view a)) (hl : Linked v.next (some p) (p :: rest))
    (hlisted : b.listed = done ++ p :: rest) (hnodup : b.listed.Nodup) :
    ∃ a', Returns step a (pc p) a' () ∧ v.Left b b.listed (K.view a') := by
  have hp : p ∈ b.listed := by simp [hlisted]
  have hnot : p ∉ done := by
    rw [hlisted] at hnodup
    intro hp
    exact (List.nodup_append.mp hnodup).2.2 p hp p (by simp) rfl
  obtain ⟨a₁, hleft, hgo, hend⟩ := hstep h hp hnot
  induction rest generalizing a done p a₁ with
  | nil =>
    refine ⟨a₁, hend hl.2, ?_⟩
    rw [hlisted]
    exact hleft
  | cons q rest ih =>
    have hnext : v.next p = some q := hl.2.1
    have hlisted' : b.listed = (done ++ [p]) ++ q :: rest := by simpa using hlisted
    have hq : q ∈ b.listed := by simp [hlisted]
    have hq' : q ∉ done ++ [p] := by
      rw [hlisted'] at hnodup
      intro hq
      exact (List.nodup_append.mp hnodup).2.2 q hq q (by simp) rfl
    obtain ⟨a₂, hleft₂, hgo₂, hend₂⟩ := hstep hleft hq hq'
    have hl' : Linked v.next (some q) (q :: rest) := ⟨rfl, hl.2.2⟩
    obtain ⟨a', hret, hall⟩ := ih hleft hl' hlisted' hq hq' a₂ hleft₂ hgo₂ hend₂
    exact ⟨a', (hgo q hnext).returns hret, hall⟩

end

end Kind

end MemoryPools
