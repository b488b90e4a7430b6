import MemoryPools.Placing

/-!
# The pages that `shrink_to_fit` leaves

An `Arena` and a `SharedArena` look for unused pages on the free list only. An unused page
of the pending list stays.
-/

namespace MemoryPools

open Interleave

namespace Book

variable {b : Book} {p : Addr}

theorem Tidy.pending_kept (h : b.Tidy) (parks : Bool) (hp : p ∈ b.pending) :
    p ∈ (b.shrink parks).listed := by
  apply List.mem_filter.mpr
  refine ⟨h.sub p (List.mem_append_right _ hp), ?_⟩
  rw [decide_eq_true_eq, mem_spare]
  exact fun hs => (List.nodup_append.mp h.lists).2.2 p hs.1 p hp rfl

theorem Tidy.pending_of_kept (h : b.Tidy) {parks : Bool} (hp : p ∈ (b.shrink parks).listed)
    (hu : b.unused p = true) : p ∈ b.pending := by
  obtain ⟨hlisted, hnot⟩ := List.mem_filter.mp hp
  rw [decide_eq_true_eq, mem_spare] at hnot
  rcases List.mem_append.mp (h.room p hlisted (not_full_of_unused hu)) with hfree | hpending
  · exact absurd ⟨hfree, hu⟩ hnot
  · exact hpending

/-- Every page that is left has a block in use, unless there is an unused one that waits. -/
theorem Tidy.shrink_used_iff (h : b.Tidy) (parks : Bool) :
    (∀ p ∈ (b.shrink parks).listed, b.unused p = false) ↔ ∀ p ∈ b.pending, b.unused p = false := by
  constructor
  · exact fun hall p hp => hall p (h.pending_kept parks hp)
  · intro hall p hp
    by_contra hne
    have hu : b.unused p = true := by simpa using hne
    rw [hall p (h.pending_of_kept hp hu)] at hu
    cases hu

end Book

variable {V : Type}

section
variable {σ : Type} {K : Kind σ} {s : Session σ V} {b : Book} {p : Addr}

theorem Kind.Sound.used_iff (h : K.Sound s b) :
    b.unused p = false ↔ ∃ x ∈ s.handles, x.2.1 = p := by
  rw [← Bool.not_eq_true, Book.unused_iff]
  constructor
  · intro hne
    obtain ⟨i, hi⟩ := not_forall_not.mp hne
    obtain ⟨x, hx, hblock⟩ := List.mem_map.mp ((h.live (p, i)).mp hi)
    exact ⟨x, hx, congrArg Prod.fst hblock⟩
  · rintro ⟨x, hx, rfl⟩ hnone
    exact hnone x.2.2 ((h.live x.2).mpr (List.mem_map_of_mem hx))

theorem Kind.Sound.shrink_used_iff (h : K.Sound s b) (ha : s.alive = true) (parks : Bool) :
    (∀ p ∈ (b.shrink parks).listed, ∃ x ∈ s.handles, x.2.1 = p) ↔
      ∀ p ∈ b.pending, b.unused p = false := by
  rw [← (h.alive ha).tidy.shrink_used_iff parks]
  exact forall₂_congr fun p _ => h.used_iff.symm

end

/-! ## The calls -/

namespace Arena

variable {cap : Nat} {s : Session Arena V} {b : Book} {p : Addr}

theorem unused_listed (h : kind.Alive s.arena b) (hp : p ∈ b.pending) :
    s.arena.unused p = b.unused p := unused_eq h (h.tidy.sub p (List.mem_append_right _ hp))

theorem shrinkToFit_drops_iff (h : kind.Sound s b) (ha : s.alive = true) :
    ∃ (a' : Arena) (full pending : List Addr),
      Completes (bounded shrinkToFit .takeFree) s.arena a' true ∧
      Linked a'.next a'.fullList full ∧
      Linked s.arena.nextFree s.arena.pendingFreeList pending ∧
      ((∀ p ∈ full, ∃ x ∈ s.handles, x.2.1 = p) ↔ ∀ p ∈ pending, s.arena.unused p = false) := by
  have hk := h.alive ha
  obtain ⟨a', hcall, hk', -⟩ := shrinks hk
  refine ⟨a', _, b.pending, hcall, hk'.shows.full, hk.shows.pending, ?_⟩
  rw [h.shrink_used_iff ha false]
  exact forall₂_congr fun p hp => by rw [unused_listed hk hp]

end Arena

namespace SharedArena

variable {cap : Nat} {s : Session SharedArena V} {b : Book} {p : Addr}

theorem unused_listed (h : kind.Alive s.arena b) (hp : p ∈ b.pending) :
    s.arena.unused p = b.unused p := unused_eq h (h.tidy.sub p (List.mem_append_right _ hp))

theorem shrinkToFit_drops_iff (h : kind.Sound s b) (ha : s.alive = true) :
    ∃ (a' : SharedArena) (full pending : List Addr),
      Completes (bounded shrinkToFit .swapShrinking) s.arena a' true ∧
      Linked a'.next a'.fullList full ∧
      Linked s.arena.nextFree s.arena.pendingFreeList pending ∧
      ((∀ p ∈ full, ∃ x ∈ s.handles, x.2.1 = p) ↔ ∀ p ∈ pending, s.arena.unused p = false) := by
  have hk := h.alive ha
  obtain ⟨a', hcall, hk', -⟩ := shrinks hk (h.length_listed_le ha)
  refine ⟨a', _, b.pending, hcall, hk'.shows.full, hk.shows.pending, ?_⟩
  rw [h.shrink_used_iff ha true]
  exact forall₂_congr fun p hp => by rw [unused_listed hk hp]

end SharedArena

/-- `shrink_to_fit` returns true. It left used pages only just when no page of the pending
list was unused. -/
theorem shrinkToFit_drops_unused_iff {cap : Nat} :
    (∀ s : Session Arena V, (sessionMachine Arena.kind cap V).Reach Machine.always s →
      s.alive = true → ∃ (a' : Arena) (full pending : List Addr),
        Completes (bounded Arena.shrinkToFit .takeFree) s.arena a' true ∧
        Linked a'.next a'.fullList full ∧
        Linked s.arena.nextFree s.arena.pendingFreeList pending ∧
        ((∀ p ∈ full, ∃ x ∈ s.handles, x.2.1 = p) ↔ ∀ p ∈ pending, s.arena.unused p = false)) ∧
    ∀ s : Session SharedArena V, (sessionMachine SharedArena.kind cap V).Reach Machine.always s →
      s.alive = true → ∃ (a' : SharedArena) (full pending : List Addr),
        Completes (bounded SharedArena.shrinkToFit .swapShrinking) s.arena a' true ∧
        Linked a'.next a'.fullList full ∧
        Linked s.arena.nextFree s.arena.pendingFreeList pending ∧
        ((∀ p ∈ full, ∃ x ∈ s.handles, x.2.1 = p) ↔ ∀ p ∈ pending, s.arena.unused p = false) := by
  constructor
  · intro s h ha
    obtain ⟨b, hs⟩ := Kind.Sound.of_reach Arena.kind_lawful h
    exact Arena.shrinkToFit_drops_iff hs ha
  · intro s h ha
    obtain ⟨b, hs⟩ := Kind.Sound.of_reach SharedArena.kind_lawful h
    exact SharedArena.shrinkToFit_drops_iff hs ha

/-- One of two pages is used, and no page waits. -/
theorem shrinkToFit_drops_unused_second : ∃ (s : Session SharedArena Nat) (a' : SharedArena)
    (full : List Addr), s.arena.npages = 2 ∧ s.handles.length = 1 ∧
      Linked a'.next a'.fullList full ∧ ∀ p ∈ full, ∃ x ∈ s.handles, x.2.1 = p := by
  have hrun : ((sessionMachine SharedArena.kind 64 Nat).run (.start SharedArena.kind 64)
      [(9, .alloc .alloc 5)]).any (fun s => s.alive = true ∧ s.arena.npages = 2 ∧
        s.handles.length = 1 ∧ s.arena.pendingFreeList = none) = true := by decide +kernel
  have hinit : (sessionMachine SharedArena.kind 64 Nat).init (.start SharedArena.kind 64) :=
    ⟨rfl, by decide +kernel⟩
  obtain ⟨s, h, hend⟩ := Machine.Trace.exists_of_run (f := Prod.snd) hinit hrun
  obtain ⟨ha, hpages, hhandles, hnone⟩ := of_decide_eq_true hend
  obtain ⟨a', full, pending, -, hfull, hpending, hiff⟩ :=
    shrinkToFit_drops_unused_iff.2 s h.reach ha
  have hnil : pending = [] := (hnone ▸ hpending).unique (linked_nil.mpr rfl)
  refine ⟨s, a', full, hpages, hhandles, hfull, hiff.mpr ?_⟩
  rw [hnil]
  exact fun p hp => absurd hp List.not_mem_nil

/-! ## An unused page that stays -/

theorem Kind.Sound.pending_unhandled {σ : Type} {K : Kind σ} (hK : K.Lawful) (cap : Nat)
    (acts : List (Nat × SessionAct V)) (p : Addr)
    (hfits : (Session.start K cap : Session σ V).Fits K)
    (hrun : ((sessionMachine K cap V).run (.start K cap) acts).any (fun s => s.alive = true ∧
      (K.view s.arena).pending = some p ∧ s.handles.all (fun x => x.2.1 ≠ p) = true) = true) :
    ∃ (s : Session σ V) (b : Book), (sessionMachine K cap V).Trace Prod.snd s (acts.map Prod.snd) ∧
      s.alive = true ∧ K.Sound s b ∧ p ∈ b.pending ∧ ∀ x ∈ s.handles, x.2.1 ≠ p := by
  have hinit : (sessionMachine K cap V).init (.start K cap) := ⟨rfl, hfits⟩
  obtain ⟨s, h, hend⟩ := Machine.Trace.exists_of_run (f := Prod.snd) hinit hrun
  obtain ⟨ha, hhead, hnone⟩ := of_decide_eq_true hend
  obtain ⟨b, hs⟩ := Kind.Sound.of_reach hK h.reach
  refine ⟨s, b, h, ha, hs, ?_, fun x hx => of_decide_eq_true (List.all_eq_true.mp hnone x hx)⟩
  exact List.mem_of_head? ((hs.alive ha).shows.pending.head_eq.symm.trans hhead)

/-- The 64th value needs a second page. The first 63 are dropped, and their page waits
unused on the pending list. -/
def fillAndDrop : List (Nat × SessionAct Nat) :=
  List.replicate 64 (40, .alloc .alloc 5) ++ List.replicate 63 (40, .drop 1)

theorem shrinkToFit_keeps_unused :
    (∃ (s : Session Arena Nat) (a' : Arena) (full : List Addr),
      (sessionMachine Arena.kind 1 Nat).Trace Prod.snd s (fillAndDrop.map Prod.snd) ∧
      s.alive = true ∧ Completes (bounded Arena.shrinkToFit .takeFree) s.arena a' true ∧
      Linked a'.next a'.fullList full ∧ 0 ∈ full ∧ ∀ x ∈ s.handles, x.2.1 ≠ 0) ∧
    ∃ (s : Session SharedArena Nat) (a' : SharedArena) (full : List Addr),
      (sessionMachine SharedArena.kind 1 Nat).Trace Prod.snd s (fillAndDrop.map Prod.snd) ∧
      s.alive = true ∧ Completes (bounded SharedArena.shrinkToFit .swapShrinking) s.arena a' true ∧
      Linked a'.next a'.fullList full ∧ 0 ∈ full ∧ ∀ x ∈ s.handles, x.2.1 ≠ 0 := by
  constructor
  · obtain ⟨s, b, h, ha, hs, hp, hnone⟩ := Kind.Sound.pending_unhandled Arena.kind_lawful
      1 fillAndDrop 0 (by decide +kernel) (by decide +kernel)
    have hk := hs.alive ha
    obtain ⟨a', hcall, hk', -⟩ := Arena.shrinks hk
    exact ⟨s, a', _, h, ha, hcall, hk'.shows.full, hk.tidy.pending_kept false hp, hnone⟩
  · obtain ⟨s, b, h, ha, hs, hp, hnone⟩ := Kind.Sound.pending_unhandled SharedArena.kind_lawful
      1 fillAndDrop 0 (by decide +kernel) (by decide +kernel)
    have hk := hs.alive ha
    obtain ⟨a', hcall, hk', -⟩ := SharedArena.shrinks hk (hs.length_listed_le ha)
    exact ⟨s, a', _, h, ha, hcall, hk'.shows.full, hk.tidy.pending_kept true hp, hnone⟩

/-! ## A filter on the lists -/

namespace Book

variable {b : Book} {p : Addr}

theorem spare_shrink (b : Book) (parks : Bool) : (b.shrink parks).spare = [] := by
  apply List.filter_eq_nil_iff.mpr
  intro p hp
  have hused : (!b.unused p) = true := (List.mem_filter.mp hp).2
  show ¬ b.unused p = true
  simpa using hused

theorem free_shrink (b : Book) (parks : Bool) :
    (b.shrink parks).free = b.free.filter fun p => p ∉ b.spare := by
  apply List.filter_congr
  intro p hp
  simp [mem_spare, hp]

end Book

/-- What was deallocated when the pages of the book that are not used were. -/
theorem View.Shows.freed_perm {v v' : View} {b : Book} (h : v.Shows b) (ht : b.Tidy)
    (h' : v'.Shows (b.shrink false)) (hsize : v'.size = v.size) (hparked : b.parked = []) :
    (v'.freed.map Freed.page).Perm (b.spare ++ v.freed.map Freed.page) ∧
      (b.spare ++ v.freed.map Freed.page).Nodup := by
  have hspare : ∀ p ∈ b.spare, p ∈ b.listed := fun p hp => ht.free_listed (Book.mem_spare.mp hp).1
  have hkept : ∀ p, p ∈ b.listed ↔ p < v.size ∧ p ∉ v.freed.map Freed.page := by
    intro p
    rw [← h.kept p, hparked, List.append_nil]
  have hkept' : ∀ p, p ∈ b.listed ∧ p ∉ b.spare ↔ p < v.size ∧ p ∉ v'.freed.map Freed.page := by
    intro p
    have hk := h'.kept p
    rw [show (b.shrink false).parked = b.parked from rfl, hparked, List.append_nil, hsize] at hk
    rw [← hk, show (b.shrink false).listed = b.listed.filter fun p => p ∉ b.spare from rfl]
    simp
  have hnodup : (b.spare ++ v.freed.map Freed.page).Nodup := by
    apply List.nodup_append.mpr
    refine ⟨ht.free_nodup.filter _, h.once, ?_⟩
    rintro p hp q hq rfl
    exact ((hkept p).mp (hspare p hp)).2 hq
  refine ⟨(List.perm_ext_iff_of_nodup h'.once hnodup).mpr fun p => ?_, hnodup⟩
  have hlt := h.freedLt p
  have hlt' := h'.freedLt p
  rw [hsize] at hlt'
  have hk := hkept p
  have hk' := hkept' p
  have hs := hspare p
  rw [List.mem_append]
  constructor
  · intro hf
    by_cases hp : p ∈ b.spare
    · exact Or.inl hp
    · right
      by_contra hnot
      exact (hk'.mp ⟨hk.mpr ⟨hlt' hf, hnot⟩, hp⟩).2 hf
  · intro hp
    by_contra hnot
    rcases hp with hp | hp
    · exact (hk'.mpr ⟨(hk.mp (hs hp)).1, hnot⟩).2 hp
    · exact (hk.mp (hk'.mpr ⟨hlt hp, hnot⟩).1).2 hp

theorem View.Shows.npages_shrink {v v' : View} {b : Book} {parks : Bool} (h : v.Shows b)
    (ht : b.Tidy) (h' : v'.Shows (b.shrink parks)) : v'.npages + b.spare.length = v.npages := by
  rw [h.npages, h'.npages]
  exact length_filter_not_mem ht.listed (ht.free_nodup.filter b.unused)
    fun p hp => ht.free_listed (Book.mem_spare.mp hp).1

namespace Arena

variable {a a' : Arena} {b : Book} {q : Addr}

def ShrinkPc.Drops (toDrop : List Addr) : ShrinkPc → Prop
  | .full _ d _ | .fullNext _ d _ _ | .fullCas _ d _ _ _ => d = toDrop
  | .recheck _ _ rest => ∀ p ∈ rest, p ∈ toDrop
  | .dropPage _ _ page rest _ => page ∈ toDrop ∧ ∀ p ∈ rest, p ∈ toDrop
  | .restore _ _ => True
  | _ => False

theorem shrinkToFit_words {toDrop : List Addr} {pc : ShrinkPc} {control : Control ShrinkPc Bool}
    (hd : pc.Drops toDrop) (hq : q ∉ toDrop) (hs : a.shrinkToFit pc = (a', control)) :
    a'.words q = a.words q ∧ ∀ pc', control = .goto pc' → pc'.Drops toDrop := by
  cases pc with
  | takeFree | walk | walkNext | walkBits | walkCas => exact absurd hd id
  | dropPage start d page rest pc =>
    obtain ⟨hpage, hrest⟩ := hd
    have hne : q ≠ page := fun e => hq (e ▸ hpage)
    cases hdrop : a.dropPage page pc with
    | mk a₁ c =>
      have hw := words_dropPage (q := q) hdrop
      rw [if_neg fun e => hne e.2] at hw
      simp only [shrinkToFit, hdrop] at hs
      obtain ⟨rfl, rfl⟩ := Prod.mk.inj hs
      refine ⟨hw, fun pc' e => ?_⟩
      cases c with
      | goto =>
        cases e
        exact ⟨hpage, hrest⟩
      | ret =>
        cases e
        exact hrest
      | panic => cases e
  | full start d current =>
    obtain ⟨-, hw, -⟩ := shrinkToFit_frame hs (by simp)
    refine ⟨hw q, fun pc' e => ?_⟩
    subst e
    simp only [shrinkToFit] at hs
    split at hs
    · cases hs
      exact hd
    · cases hs
      exact fun p hp => hd ▸ hp
  | fullNext start d current value =>
    obtain ⟨-, hw, -⟩ := shrinkToFit_frame hs (by simp)
    refine ⟨hw q, fun pc' e => ?_⟩
    subst e
    simp only [shrinkToFit] at hs
    split at hs
    · cases hs
      exact hd
    · cases hs
      exact hd
  | fullCas start d current value nextValue =>
    obtain ⟨-, hw, -⟩ := shrinkToFit_frame hs (by simp)
    refine ⟨hw q, fun pc' e => ?_⟩
    subst e
    simp only [shrinkToFit] at hs
    split at hs
    · split at hs
      · cases hs
        exact hd
      · cases hs
        exact hd
    · cases hs
  | recheck start d rest =>
    obtain ⟨-, hw, -⟩ := shrinkToFit_frame hs (by simp)
    refine ⟨hw q, fun pc' e => ?_⟩
    subst e
    cases rest with
    | nil =>
      cases hs
      trivial
    | cons p rest =>
      simp only [shrinkToFit] at hs
      split at hs
      · cases hs
        exact ⟨hd p (by simp), fun r hr => hd r (by simp [hr])⟩
      · cases hs
  | restore start d =>
    obtain ⟨-, hw, -⟩ := shrinkToFit_frame hs (by simp)
    refine ⟨hw q, fun pc' e => ?_⟩
    subst e
    simp only [shrinkToFit] at hs
    split at hs <;> cases hs

theorem shrinkToFit_kept (h : kind.Alive a b) (hq : q ∉ b.spare)
    (hcall : Completes (bounded shrinkToFit .takeFree) a a' true) : a'.words q = a.words q := by
  obtain ⟨next, head, a₁, hgoes, -, hwords, -⟩ := walks h
  obtain ⟨a₂, pc₂, hgoes₂, hret⟩ := hgoes.resume hcall.returns
  have hkeeps := hgoes₂.keeps (P := fun s pc => s.words q = a.words q ∧ pc.Drops b.spare)
    (fun hs he => ?_) ⟨hwords q, rfl⟩
  · exact (shrinkToFit_words hkeeps.2 hq hret).1.trans hkeeps.1
  · obtain ⟨hw, hd⟩ := shrinkToFit_words hs.2 hq he
    exact ⟨hw.trans hs.1, hd _ rfl⟩

/-- A call that finds no unused page leaves everything as it was. -/
theorem shrinkToFit_again (h : kind.Alive a b) (hnone : b.spare = []) :
    Completes (bounded shrinkToFit .takeFree) a a true := by
  have hused : ∀ q ∈ b.free, a.unused q = false := by
    intro q hq
    rw [unused_eq h (h.tidy.free_listed hq)]
    simpa using List.filter_eq_nil_iff.mp hnone q hq
  let a₁ : Arena := { a with freeList := none }
  have hfull : ∀ {current v}, readLink a₁.next a₁.fullList current = some v → false = false →
      Goes shrinkToFit a₁ (.full a.freeList [] current) a₁ (.full a.freeList [] (some v)) :=
    fun hv _ => full_keeps hv List.not_mem_nil
  obtain ⟨current, hgoes, hread⟩ := (Walk.start h.shows.free).passes (walk_keeps (a := a₁)) hused
  obtain ⟨current', hgoes', hread'⟩ := (Walk.start h.shows.full).passes hfull fun _ _ => rfl
  have hread : readLink a₁.nextFree a.freeList current = none := hread
  have hread' : readLink a₁.next a₁.fullList current' = none := hread'
  have hstep : a₁.shrinkToFit (.walk a.freeList current []) =
      (a₁, .goto (.full a.freeList [] none)) := by
    simp only [shrinkToFit, hread]
  have hstep' : a₁.shrinkToFit (.full a.freeList [] current') =
      (a₁, .goto (.recheck a.freeList [] [])) := by
    simp only [shrinkToFit, hread']
  apply Returns.completes
  apply Returns.head rfl
  apply (hgoes.trans (.single hstep)).returns
  apply (hgoes'.trans (.single hstep')).returns
  exact .head rfl (.of_step rfl)

theorem shrink_filters {s : Session Arena V} (h : kind.Sound s b) (ha : s.alive = true) :
    ∃ (s' : Session Arena V) (free pending full d : List Addr),
      s.arena.view.Lists free pending full ∧ d = free.filter s.arena.unused ∧
      Yields (fun fuel => s.shrink kind fuel) s' ∧
      s'.arena.view.Lists (free.filter fun p => p ∉ d) pending (full.filter fun p => p ∉ d) ∧
      s'.arena.npages + d.length = s.arena.npages ∧
      (∀ q ∈ full, q ∉ d → s'.arena.words q = s.arena.words q) ∧
      s'.counter = s.counter ∧ s'.value = s.value ∧
      (s'.arena.heap.freed.map Freed.page).Perm (d ++ s.arena.heap.freed.map Freed.page) ∧
      (d ++ s.arena.heap.freed.map Freed.page).Nodup ∧
      Yields (fun fuel => s'.shrink kind fuel) s' := by
  have hk := h.alive ha
  have hspare : b.spare = b.free.filter s.arena.unused :=
    List.filter_congr fun q hq => (unused_eq hk (hk.tidy.free_listed hq)).symm
  obtain ⟨a', hcall, hk', hsize⟩ := shrinks hk
  obtain ⟨hperm, hnodup⟩ := hk.shows.freed_perm hk.tidy hk'.shows hsize (parked_nil hk)
  have hlists := hk'.shows.lists
  rw [Book.free_shrink] at hlists
  exact ⟨{ s with arena := a' }, b.free, b.pending, b.listed, b.spare, hk.shows.lists, hspare,
    Session.shrink_yields hcall, hlists, hk.shows.npages_shrink hk.tidy hk'.shows,
    fun q _ hq => shrinkToFit_kept hk hq hcall, rfl, rfl, hperm, hnodup,
    Session.shrink_yields (shrinkToFit_again hk' (Book.spare_shrink b _))⟩

end Arena

namespace SharedArena

variable {a a' : SharedArena} {b : Book} {q : Addr}

theorem shrinkToFit_again (h : kind.Alive a b) (hlen : b.listed.length ≤ maxPages)
    (hnone : b.spare = []) : Completes (bounded shrinkToFit .swapShrinking) a a true := by
  obtain ⟨hwriter, hshrinking, -⟩ := h.quiet
  have hused : ∀ q ∈ b.free, a.unused q = false := by
    intro q hq
    rw [unused_eq h (h.tidy.free_listed hq)]
    simpa using List.filter_eq_nil_iff.mp hnone q hq
  let a₁ : SharedArena := { a with writer := true, shrinking := true, freeList := none }
  have henter : a.shrinkToFit .swapShrinking =
      ({ a with shrinking := true }, .goto .swapWriter) := by
    simp only [shrinkToFit, hshrinking, Bool.false_eq_true, ite_false]
  have hlock : shrinkToFit { a with shrinking := true } .swapWriter =
      ({ a with writer := true, shrinking := true }, .goto .swapFree) := by
    simp only [shrinkToFit, hwriter, Bool.false_eq_true, ite_false]
  have hfull : ∀ {current v}, readLink a₁.next a₁.fullList current = some v → false = false →
      Goes shrinkToFit a₁ (.full a.freeList [] current) a₁ (.full a.freeList [] (some v)) :=
    fun hv _ => full_keeps hv List.not_mem_nil
  obtain ⟨current, hgoes, hread⟩ := (Walk.start h.shows.free).passes (walk_keeps (a := a₁)) hused
  obtain ⟨current', hgoes', hread'⟩ := (Walk.start h.shows.full).passes hfull fun _ _ => rfl
  have hread : readLink a₁.nextFree a.freeList current = none := hread
  have hread' : readLink a₁.next a₁.fullList current' = none := hread'
  have hstep : a₁.shrinkToFit (.walk a.freeList current []) =
      (a₁, .goto (.full a.freeList [] none)) := by
    simp only [shrinkToFit, hread]
    rfl
  have hstep' : a₁.shrinkToFit (.full a.freeList [] current') =
      (a₁, .goto (.restore a.freeList 0)) := by
    simp only [shrinkToFit, hread', ne_eq, not_true_eq_false, ite_false]
  have hlt : a.npages < 2 ^ 64 := by
    rw [show a.npages = b.listed.length from h.shows.npages]
    exact Nat.lt_of_le_of_lt hlen (by decide)
  have hend := shrink_parks (a := a₁) a.freeList [] rfl (Nat.zero_le _) hlt
  rw [if_neg (by simp)] at hend
  have hsame : ∀ w r, a.writer = w → a.shrinking = r → { a₁ with
      freeList := a.freeList
      npages := a₁.npages - ([] : List Addr).length
      toFree := if ([] : List Addr) = [] then a₁.toFree else some (a₁.toFree.getD [] ++ [])
      toFreeDelay := if ([] : List Addr) = [] then a₁.toFreeDelay else 0
      shrinking := r
      writer := w } = a := by
    rintro _ _ rfl rfl
    rfl
  rw [hsame false false hwriter hshrinking] at hend
  apply Returns.completes
  apply Returns.head henter
  apply Returns.head hlock
  apply Returns.head rfl
  apply Returns.head rfl
  apply (hgoes.trans (.single hstep)).returns
  exact (hgoes'.trans (.single hstep')).returns hend

theorem shrink_filters {s : Session SharedArena V} (h : kind.Sound s b) (ha : s.alive = true) :
    ∃ (s' : Session SharedArena V) (free pending full d : List Addr),
      s.arena.view.Lists free pending full ∧ d = free.filter s.arena.unused ∧
      Yields (fun fuel => s.shrink kind fuel) s' ∧
      s'.arena.view.Lists (free.filter fun p => p ∉ d) pending (full.filter fun p => p ∉ d) ∧
      s'.arena.npages + d.length = s.arena.npages ∧
      s'.arena.word = s.arena.word ∧ s'.counter = s.counter ∧ s'.value = s.value ∧
      s'.arena.heap.freed = s.arena.heap.freed ∧
      s'.arena.toFree =
        (if d = [] then s.arena.toFree else some (s.arena.toFree.getD [] ++ d)) ∧
      s'.arena.toFreeDelay = (if d = [] then s.arena.toFreeDelay else 0) ∧
      (s.arena.toFree.getD [] ++ d).Nodup ∧
      Yields (fun fuel => s'.shrink kind fuel) s' := by
  have hk := h.alive ha
  have hlen := h.length_listed_le ha
  have hspare : b.spare = b.free.filter s.arena.unused :=
    List.filter_congr fun q hq => (unused_eq hk (hk.tidy.free_listed hq)).symm
  obtain ⟨a', hcall, hk', -, htoFree, hdelay⟩ := shrinks hk hlen
  have hlists := hk'.shows.lists
  rw [Book.free_shrink] at hlists
  have hword : a'.word = s.arena.word :=
    hcall.returns.keeps (P := fun a => a.word = s.arena.word)
      (fun hs he => (shrinkToFit_word he).1.trans hs) rfl
  have hfreed : a'.heap.freed = s.arena.heap.freed :=
    hcall.returns.keeps (P := fun a => a.heap.freed = s.arena.heap.freed)
      (fun hs he => (shrinkToFit_freed he).trans hs) rfl
  have hnodup : (b.parked ++ b.spare).Nodup := hk'.tidy.parked
  rw [← parked_eq hk] at hnodup
  have hlen' : (b.shrink true).listed.length ≤ maxPages :=
    (List.length_filter_le _ _).trans hlen
  exact ⟨{ s with arena := a' }, b.free, b.pending, b.listed, b.spare, hk.shows.lists, hspare,
    Session.shrink_yields hcall, hlists, hk.shows.npages_shrink hk.tidy hk'.shows, hword, rfl,
    rfl, hfreed, htoFree, hdelay, hnodup,
    Session.shrink_yields (shrinkToFit_again hk' hlen' (Book.spare_shrink b _))⟩

end SharedArena

/-- `shrink_to_fit` takes the unused pages of the free list out of it and of the list of all
pages. They are deallocated, or put behind the pages that wait for that. -/
theorem shrinkToFit_filters {cap : Nat} :
    (∀ s : Session Arena V, (sessionMachine Arena.kind cap V).Reach Machine.always s →
      s.alive = true → ∃ (s' : Session Arena V) (free pending full d : List Addr),
        s.arena.view.Lists free pending full ∧ d = free.filter s.arena.unused ∧
        Yields (fun fuel => s.shrink Arena.kind fuel) s' ∧
        s'.arena.view.Lists (free.filter fun p => p ∉ d) pending (full.filter fun p => p ∉ d) ∧
        s'.arena.npages + d.length = s.arena.npages ∧
        (∀ q ∈ full, q ∉ d → s'.arena.words q = s.arena.words q) ∧
        s'.counter = s.counter ∧ s'.value = s.value ∧
        (s'.arena.heap.freed.map Freed.page).Perm (d ++ s.arena.heap.freed.map Freed.page) ∧
        (d ++ s.arena.heap.freed.map Freed.page).Nodup ∧
        Yields (fun fuel => s'.shrink Arena.kind fuel) s') ∧
    ∀ s : Session SharedArena V, (sessionMachine SharedArena.kind cap V).Reach Machine.always s →
      s.alive = true → ∃ (s' : Session SharedArena V) (free pending full d : List Addr),
        s.arena.view.Lists free pending full ∧ d = free.filter s.arena.unused ∧
        Yields (fun fuel => s.shrink SharedArena.kind fuel) s' ∧
        s'.arena.view.Lists (free.filter fun p => p ∉ d) pending (full.filter fun p => p ∉ d) ∧
        s'.arena.npages + d.length = s.arena.npages ∧
        s'.arena.word = s.arena.word ∧ s'.counter = s.counter ∧ s'.value = s.value ∧
        s'.arena.heap.freed = s.arena.heap.freed ∧
        s'.arena.toFree =
          (if d = [] then s.arena.toFree else some (s.arena.toFree.getD [] ++ d)) ∧
        s'.arena.toFreeDelay = (if d = [] then s.arena.toFreeDelay else 0) ∧
        (s.arena.toFree.getD [] ++ d).Nodup ∧
        Yields (fun fuel => s'.shrink SharedArena.kind fuel) s' := by
  constructor
  · intro s h ha
    obtain ⟨b, hs⟩ := Kind.Sound.of_reach Arena.kind_lawful h
    exact Arena.shrink_filters hs ha
  · intro s h ha
    obtain ⟨b, hs⟩ := Kind.Sound.of_reach SharedArena.kind_lawful h
    exact SharedArena.shrink_filters hs ha

/-- Two of three pages are parked. -/
theorem shrinkToFit_filters_three : ∃ s s' : Session SharedArena Nat,
    s.arena.npages = 3 ∧ Yields (fun fuel => s.shrink SharedArena.kind fuel) s' ∧
      s'.arena.word = s.arena.word ∧ Yields (fun fuel => s'.shrink SharedArena.kind fuel) s' := by
  have hrun : ((sessionMachine SharedArena.kind 180 Nat).run (.start SharedArena.kind 180)
      [(9, .alloc .alloc 5)]).any (fun s => s.alive = true ∧ s.arena.npages = 3) = true := by
    decide +kernel
  have hinit : (sessionMachine SharedArena.kind 180 Nat).init (.start SharedArena.kind 180) :=
    ⟨rfl, by decide +kernel⟩
  obtain ⟨s, h, hend⟩ := Machine.Trace.exists_of_run (f := Prod.snd) hinit hrun
  obtain ⟨ha, hnpages⟩ := of_decide_eq_true hend
  obtain ⟨s', -, -, -, -, -, -, hyields, -, -, hword, -, -, -, -, -, -, hagain⟩ :=
    shrinkToFit_filters.2 s h.reach ha
  exact ⟨s, s', hnpages, hyields, hword, hagain⟩

/-! ## The pages of a pool with a handle -/

namespace Pool

variable {a a' : Pool} {b b' : Book} {q : Addr}

theorem word_eq (h : kind.Alive a b) (h' : kind.Alive a' b') (hlive : b'.live = b.live)
    (hq : q ∈ b.listed) (hq' : q ∈ b'.listed) : a'.word q = a.word q := by
  apply BitVec.eq_of_getLsbD_eq
  intro j hj
  have ho : (a.word q).getLsbD 63 = true := owned h hq
  have ho' : (a'.word q).getLsbD 63 = true := owned h' hq'
  have hheld : j < 63 ∧ (a.word q).getLsbD j = false ↔ (q, j) ∈ b.live := held_iff h hq
  have hheld' : j < 63 ∧ (a'.word q).getLsbD j = false ↔ (q, j) ∈ b'.live := held_iff h' hq'
  rw [hlive, ← hheld] at hheld'
  by_cases e : j = 63
  · rw [e, ho, ho']
  · have hlt : j < 63 := by omega
    simp only [hlt, true_and] at hheld'
    rw [Bool.eq_iff_iff, ← not_iff_not, Bool.not_eq_true, Bool.not_eq_true, hheld']

/-- A page without a handle is unused, and the free list has all of those. -/
theorem mem_spare_iff {s : Session Pool V} (h : kind.Sound s b) (ha : s.alive = true)
    (hq : q ∈ b.listed) : q ∈ b.spare ↔ q ∉ s.blocks.map Prod.fst := by
  have hk := h.alive ha
  have hused := h.used_iff (p := q)
  have hmem : q ∈ s.blocks.map Prod.fst ↔ ∃ x ∈ s.handles, x.2.1 = q := by
    simp [Session.blocks]
  rw [hmem, ← hused, Bool.not_eq_false, Book.mem_spare]
  constructor
  · exact And.right
  · intro hu
    refine ⟨?_, hu⟩
    have hroom := hk.tidy.room q hq (Book.Tidy.not_full_of_unused hu)
    rw [pending_nil hk, List.append_nil] at hroom
    exact hroom

end Pool

/-- `shrink_to_fit` of a pool leaves the pages with a handle, and deallocates the others. -/
theorem Pool.shrinkToFit_keeps_handled {cap : Nat} {s : Session Pool V}
    (h : (sessionMachine Pool.kind cap V).Reach Machine.always s) (ha : s.alive = true) :
    ∃ (s' : Session Pool V) (free full : List Addr),
      s.arena.view.Lists free [] full ∧ Yields (fun fuel => s.shrink Pool.kind fuel) s' ∧
      s'.arena.view.Lists (free.filter fun p => s.arena.word p ≠ BitVec.allOnes 64) []
        (full.filter fun p => p ∈ s.blocks.map Prod.fst) ∧
      s'.arena.npages = (full.filter fun p => p ∈ s.blocks.map Prod.fst).length ∧
      (∀ q ∈ full, q ∈ s.blocks.map Prod.fst → s'.arena.word q = s.arena.word q) ∧
      s'.counter = s.counter ∧ s'.value = s.value ∧
      (s'.arena.heap.freed.map Freed.page).Perm
        ((full.filter fun p => p ∉ s.blocks.map Prod.fst) ++ s.arena.heap.freed.map Freed.page) ∧
      (s'.arena.heap.freed.map Freed.page).Nodup := by
  obtain ⟨b, hs⟩ := Kind.Sound.of_reach kind_lawful h
  have hk := hs.alive ha
  obtain ⟨a', r, hcall, hk', hsize⟩ := shrinks hk
  obtain ⟨hperm, hnodup⟩ := hk.shows.freed_perm hk.tidy hk'.shows hsize (parked_nil hk)
  have hfree : (b.shrink false).free = b.free.filter fun p => s.arena.word p ≠ BitVec.allOnes 64 := by
    apply List.filter_congr
    intro p hp
    have hones : s.arena.word p = BitVec.allOnes 64 ↔ _ := ones_iff hk (hk.tidy.free_listed hp)
    rw [decide_not, Bool.not_inj_iff, Bool.eq_iff_iff, decide_eq_true_eq, hones]
  have hfull : (b.shrink false).listed = b.listed.filter fun p => p ∈ s.blocks.map Prod.fst := by
    apply List.filter_congr
    intro p hp
    rw [decide_eq_decide, mem_spare_iff hs ha hp, not_not]
  have hspare : b.spare.Perm (b.listed.filter fun p => p ∉ s.blocks.map Prod.fst) := by
    apply (List.perm_ext_iff_of_nodup (hk.tidy.free_nodup.filter _) (hk.tidy.listed.filter _)).mpr
    intro p
    show p ∈ b.spare ↔ _
    rw [List.mem_filter, decide_eq_true_eq]
    constructor
    · intro hp
      have hlisted := hk.tidy.free_listed (Book.mem_spare.mp hp).1
      exact ⟨hlisted, (mem_spare_iff hs ha hlisted).mp hp⟩
    · exact fun hp => (mem_spare_iff hs ha hp.1).mpr hp.2
  have hlists := hk.shows.lists
  have hlists' := hk'.shows.lists
  rw [pending_nil hk] at hlists
  rw [pending_nil hk', hfree, hfull] at hlists'
  refine ⟨{ s with arena := a' }, b.free, b.listed, hlists, Session.shrink_yields hcall, hlists',
    ?_, fun q hq hu => ?_, rfl, rfl, hperm.trans (hspare.append_right _), hk'.shows.once⟩
  · rw [← hfull]
    exact hk'.shows.npages
  · apply word_eq hk hk' rfl hq
    rw [hfull, List.mem_filter, decide_eq_true_eq]
    exact ⟨hq, hu⟩

/-- One of two pages stays. -/
theorem Pool.shrinkToFit_keeps_handled_second : ∃ s s' : Session Pool Nat, s.arena.npages = 2 ∧
    Yields (fun fuel => s.shrink Pool.kind fuel) s' ∧ s'.value = s.value ∧
      (s'.arena.heap.freed.map Freed.page).Nodup := by
  have hrun : ((sessionMachine Pool.kind 64 Nat).run (.start Pool.kind 64)
      [(9, .alloc .alloc 5)]).any (fun s => s.alive = true ∧ s.arena.npages = 2) = true := by
    decide +kernel
  have hinit : (sessionMachine Pool.kind 64 Nat).init (.start Pool.kind 64) :=
    ⟨rfl, by decide +kernel⟩
  obtain ⟨s, h, hend⟩ := Machine.Trace.exists_of_run (f := Prod.snd) hinit hrun
  obtain ⟨ha, hnpages⟩ := of_decide_eq_true hend
  obtain ⟨s', -, -, -, hyields, -, -, -, -, hvalue, -, hnodup⟩ :=
    Pool.shrinkToFit_keeps_handled h.reach ha
  exact ⟨s, s', hnpages, hyields, hvalue, hnodup⟩

end MemoryPools
