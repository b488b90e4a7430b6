import MemoryPools.Session
import MemoryPools.Interleave.Trace

/-!
# What an operation of a program does

Every operation that a program is offered returns, and does to the book of the pool what
the calls of the pool do. The counter of a block is the number of its handles, so the
assertions on it hold.
-/

namespace MemoryPools

open Interleave

/-! ## Handles that are made and dropped by one thread -/

namespace HandleKind

theorem new_completes (handle : HandleKind) : Completes (bounded handle.new .load) 0 1 () := by
  apply Returns.completes
  rcases @new_load handle with h | h
  · exact .of_step h
  · exact .head h (.of_step new_store)

theorem drop_completes (handle : HandleKind) : Completes (bounded handle.drop .load) 1 0 true := by
  apply Returns.completes
  rcases @drop_load handle with h | ⟨h, -⟩
  · exact .of_step h
  · exact .head h (.of_step drop_store)

theorem drop_completes_of_many {handle : HandleKind} {counter : Nat}
    (hc : handle.cloneable = true) (h1 : 1 < counter) (h : counter < isizeMax) :
    Completes (bounded handle.drop .load) counter (counter - 1) false :=
  (Returns.of_step (drop_of_many hc h1 h .load)).completes

end HandleKind

/-! ## The invariant -/

section
variable {σ V : Type} (K : Kind σ)

/-- `b` is the book of the pool, or what is left of it when the pool was dropped. -/
structure Kind.Sound (s : Session σ V) (b : Book) : Prop where
  alive : s.alive = true → K.Alive s.arena b
  gone : s.alive = false → (K.view s.arena).Leftover b.live
  live : ∀ x, x ∈ b.live ↔ x ∈ s.blocks
  counter : ∀ x, s.counter x = s.blocks.count x
  same : ∀ h ∈ s.handles, ∀ h' ∈ s.handles, h.2 = h'.2 → h.1 = h'.1
  single : ∀ h ∈ s.handles, h.1.cloneable = false → s.blocks.count h.2 = 1
  panicked : s.panicked = false
  fits : s.Fits K

/-- The same where the blocks of `owed` are in use without a handle: their bits are still
to be given back. -/
structure Kind.Owing (s : Session σ V) (owed : List Block) (b : Book) : Prop where
  alive : s.alive = true → K.Alive s.arena b
  gone : s.alive = false → (K.view s.arena).Leftover b.live
  live : ∀ x, x ∈ b.live ↔ x ∈ s.blocks ∨ x ∈ owed
  apart : ∀ x ∈ owed, x ∉ s.blocks
  counter : ∀ x, s.counter x = s.blocks.count x
  same : ∀ h ∈ s.handles, ∀ h' ∈ s.handles, h.2 = h'.2 → h.1 = h'.1
  single : ∀ h ∈ s.handles, h.1.cloneable = false → s.blocks.count h.2 = 1
  panicked : s.panicked = false
  fits : s.Fits K

inductive Kind.Moves (s : Session σ V) (b : Book) :
    SessionAct V → Session σ V → Book → Prop
  | alloc {kind : AllocKind} {handle : HandleKind} {value : V} {n : Nat} {b' : Book} {p : Addr}
      {i : Nat} {rest : List Addr} {arena : σ} (ha : s.alive = true)
      (hh : K.handle kind = some handle) (hf : Book.Fetch b n b') (hfree : b'.free = p :: rest)
      (hi : i < 63) (hnew : (p, i) ∉ b'.live) (hk : K.Alive arena (b'.take (p, i)))
      (hsize : (K.view arena).size = (K.view s.arena).size + n) :
    Moves s b (.alloc kind value)
      { s with
        arena
        value := Function.update s.value (p, i) (some value)
        counter := Function.update s.counter (p, i) 1
        handles := (handle, (p, i)) :: s.handles } (b'.take (p, i))
  | clone {k : Nat} {handle : HandleKind} {block : Block}
      (hh : s.handles[k]? = some (handle, block)) (hc : handle.cloneable = true) :
    Moves s b (.clone k)
      { s with
        counter := Function.update s.counter block (s.counter block + 1)
        handles := (handle, block) :: s.handles } b
  | write {k : Nat} {handle : HandleKind} {block : Block} {value : V}
      (hh : s.handles[k]? = some (handle, block)) (hc : handle.cloneable = false) :
    Moves s b (.write k value) (s.write block value) b
  | dropHandle {k : Nat} {handle : HandleKind} {block : Block}
      (hh : s.handles[k]? = some (handle, block)) (hmany : 1 < s.blocks.count block) :
    Moves s b (.drop k)
      { s with
        counter := Function.update s.counter block (s.counter block - 1)
        handles := s.handles.eraseIdx k } b
  | dropBlock {k : Nat} {handle : HandleKind} {block : Block} {arena : σ}
      (hh : s.handles[k]? = some (handle, block)) (hlast : s.blocks.count block = 1)
      (ha : s.alive = true) (hk : K.Alive arena (b.give K.onFree block))
      (hsize : (K.view arena).size = (K.view s.arena).size) :
    Moves s b (.drop k)
      { s with
        arena
        counter := Function.update s.counter block 0
        handles := s.handles.eraseIdx k
        dropped := s.dropped ++ [s.value block] } (b.give K.onFree block)
  | dropLast {k : Nat} {handle : HandleKind} {block : Block} {arena : σ}
      (hh : s.handles[k]? = some (handle, block)) (hlast : s.blocks.count block = 1)
      (ha : s.alive = false) (hl : (K.view arena).Leftover (b.live.erase block))
      (hc : Completes (K.dropBlock false block) s.arena arena ())
      (hsize : (K.view arena).size = (K.view s.arena).size) :
    Moves s b (.drop k)
      { s with
        arena
        counter := Function.update s.counter block 0
        handles := s.handles.eraseIdx k
        dropped := s.dropped ++ [s.value block] } { b with live := b.live.erase block }
  | shrink {arena : σ} (ha : s.alive = true) (hk : K.Alive arena (b.shrink K.parks))
      (hsize : (K.view arena).size = (K.view s.arena).size) :
    Moves s b .shrink { s with arena } (b.shrink K.parks)
  | release {arena : σ} (ha : s.alive = true) (hl : (K.view arena).Leftover b.live)
      (hsize : (K.view arena).size = (K.view s.arena).size) :
    Moves s b .release { s with arena, alive := false } b

end

/-! ## Operations return -/

namespace Session

variable {σ V : Type} {K : Kind σ} {s : Session σ V}

theorem alloc_yields {handle : HandleKind} {value : V} {arena : σ} {x : Block}
    (hf : Completes K.findPlace s.arena arena x) (hzero : s.counter x = 0) :
    Yields (fun fuel => s.alloc K fuel handle value)
      { s with
        arena
        value := Function.update s.value x (some value)
        counter := Function.update s.counter x 1
        handles := (handle, x) :: s.handles } := by
  have hn := handle.new_completes
  rw [← hzero] at hn
  apply hf.yields
  · intro fuel a₁ e
    simp only [alloc, e]
  · intro fuel e
    simp only [alloc, e]
    rfl
  · apply hn.yields
    · intro fuel c e
      simp only [e]
    · intro fuel e
      simp only [e]
      rfl
    · exact .now fun _ => rfl

theorem dropBlock_yields {arena : σ} {x : Block}
    (hd : Completes (K.dropBlock s.alive x) s.arena arena ()) :
    Yields (fun fuel => s.dropBlock K fuel x)
      { s with arena, dropped := s.dropped ++ [s.value x] } := by
  apply hd.yields
  · intro fuel a₁ e
    simp only [dropBlock, e]
  · intro fuel e
    simp only [dropBlock, e]
    rfl
  · exact .now fun _ => rfl

theorem drop_yields_last {k : Nat} {handle : HandleKind} {arena : σ} {x : Block}
    (hd : Completes (K.dropBlock s.alive x) s.arena arena ()) (hone : s.counter x = 1) :
    Yields (fun fuel => s.drop K fuel k handle x)
      { s with
        arena
        counter := Function.update s.counter x 0
        handles := s.handles.eraseIdx k
        dropped := s.dropped ++ [s.value x] } := by
  have hh := handle.drop_completes
  rw [← hone] at hh
  apply hh.yields
  · intro fuel c e
    simp only [drop, e]
  · intro fuel e
    simp only [drop, e, ite_true]
    rfl
  · exact dropBlock_yields (s := { s with
      counter := Function.update s.counter x 0, handles := s.handles.eraseIdx k }) hd

theorem drop_yields_many {k : Nat} {handle : HandleKind} {x : Block}
    (hc : handle.cloneable = true) (hmany : 1 < s.counter x) (hlt : s.counter x < isizeMax) :
    Yields (fun fuel => s.drop K fuel k handle x)
      { s with
        counter := Function.update s.counter x (s.counter x - 1)
        handles := s.handles.eraseIdx k } := by
  apply (HandleKind.drop_completes_of_many hc hmany hlt).yields
  · intro fuel c e
    simp only [drop, e]
  · intro fuel e
    simp only [drop, e, Bool.false_eq_true, ite_false]
    rfl
  · exact .now fun _ => rfl

theorem shrink_yields {arena : σ} {r : K.shrunk} (h : Completes K.shrinkToFit s.arena arena r) :
    Yields (fun fuel => s.shrink K fuel) { s with arena } := by
  apply h.yields
  · intro fuel a₁ e
    simp only [shrink, e]
  · intro fuel e
    simp only [shrink, e]
    rfl
  · exact .now fun _ => rfl

theorem release_yields {arena : σ} (h : Completes K.release s.arena arena ()) :
    Yields (fun fuel => s.release K fuel) { s with arena, alive := false } := by
  apply h.yields
  · intro fuel a₁ e
    simp only [release, e]
  · intro fuel e
    simp only [release, e]
    rfl
  · exact .now fun _ => rfl

theorem offered_of_exec {act : SessionAct V} {fuel : Nat} {s' : Session σ V}
    (h : s.exec K fuel act = some s') : s.Offered K act := by
  cases act with
  | alloc kind value =>
    simp only [exec] at h
    cases hk : K.handle kind with
    | none =>
      rw [hk] at h
      cases h
    | some handle =>
      rw [hk] at h
      by_cases ha : s.alive = true
      · exact ⟨ha, handle, hk⟩
      · simp [ha] at h
  | clone k =>
    simp only [exec] at h
    cases hk : s.handles[k]? with
    | none =>
      rw [hk] at h
      cases h
    | some x =>
      rw [hk] at h
      by_cases hc : x.1.cloneable = true
      · exact ⟨x.1, x.2, hk, hc⟩
      · simp [hc] at h
  | write k value =>
    simp only [exec] at h
    cases hk : s.handles[k]? with
    | none =>
      rw [hk] at h
      cases h
    | some x =>
      rw [hk] at h
      by_cases hc : x.1.cloneable = true
      · simp [hc] at h
      · exact ⟨x.1, x.2, hk, by simpa using hc⟩
  | drop k =>
    simp only [exec] at h
    cases hk : s.handles[k]? with
    | none =>
      rw [hk] at h
      cases h
    | some x => exact ⟨x.1, x.2, hk⟩
  | shrink | release =>
    simp only [exec] at h
    by_cases ha : s.alive = true
    · exact ha
    · simp [ha] at h

theorem exec_of_step {label : Nat × SessionAct V} {s' : Session σ V} (h : s.step K label = some s') :
    s.exec K label.1 label.2 = some s' ∧ s'.Fits K := by
  unfold step at h
  by_cases hp : s.panicked = true
  · simp [hp] at h
  · rw [if_neg hp] at h
    cases he : s.exec K label.1 label.2 with
    | none =>
      rw [he] at h
      cases h
    | some s₁ =>
      rw [he] at h
      by_cases hf : s₁.Fits K
      · simp only [hf, ite_true] at h
        exact ⟨h, Option.some.inj h ▸ hf⟩
      · simp [hf] at h

/-! ## Handles of a list -/

variable {k : Nat} {handle : HandleKind} {block : Block}

theorem handles_perm (hh : s.handles[k]? = some (handle, block)) :
    ((handle, block) :: s.handles.eraseIdx k).Perm s.handles := by
  obtain ⟨hk, e⟩ := List.getElem?_eq_some_iff.mp hh
  rw [← e]
  exact List.getElem_cons_eraseIdx_perm hk

theorem blocks_perm (hh : s.handles[k]? = some (handle, block)) :
    (block :: (s.handles.eraseIdx k).map Prod.snd).Perm s.blocks := (handles_perm hh).map Prod.snd

theorem pages_eq {b : Book} (h : K.Alive s.arena b) :
    s.pages K = b.listed.length + b.parked.length := h.pages_eq

theorem mem_blocks (hh : s.handles[k]? = some (handle, block)) : block ∈ s.blocks :=
  (blocks_perm hh).mem_iff.mp List.mem_cons_self

end Session

namespace Kind.Owing

variable {σ V : Type} {K : Kind σ} {s s' : Session σ V} {owed : List Block} {b b' : Book}
  {act : SessionAct V}

theorem nodup (h : K.Owing s owed b) : b.live.Nodup := by
  cases ha : s.alive with
  | true => exact (h.alive ha).tidy.live
  | false => exact (h.gone ha).nodup

theorem length_listed_le (h : K.Owing s owed b) (ha : s.alive = true) :
    b.listed.length ≤ maxPages :=
  (h.alive ha).length_listed_le (Nat.le_trans (Nat.le_add_right _ _) h.fits)

theorem counter_lt (h : K.Owing s owed b) (x : Block) : s.counter x < isizeMax := by
  have hf : _ ≤ _ := h.fits
  have hle : s.blocks.count x ≤ s.handles.length :=
    List.count_le_length.trans_eq (List.length_map Prod.snd)
  rw [h.counter x]
  unfold handleBytes at hf
  unfold isizeMax
  omega

theorem counter_zero (h : K.Owing s owed b) {x : Block} (hx : x ∉ b.live) : s.counter x = 0 := by
  rw [h.counter x, List.count_eq_zero]
  exact fun hm => hx ((h.live x).mpr (Or.inl hm))

theorem page_kept (h : K.Owing s owed b) {x : Block} (hx : x ∈ b.live) :
    x.1 < (K.view s.arena).size ∧ x.1 ∉ (K.view s.arena).freed.map Freed.page := by
  have hlive : (x.1, x.2) ∈ b.live := hx
  cases ha : s.alive with
  | true =>
    have hk := h.alive ha
    exact (hk.shows.kept x.1).mp (List.mem_append_left _ (hk.tidy.home x.1 x.2 hlive).1)
  | false => exact ((h.gone ha).kept x.1).mp ⟨x.2, hlive⟩

theorem cloneable_of_many (h : K.Owing s owed b) {x : HandleKind × Block} (hx : x ∈ s.handles)
    (hmany : 1 < s.blocks.count x.2) : x.1.cloneable = true := by
  by_contra hc
  have hone := h.single x hx (by simpa using hc)
  omega

/-- The last handle of a block is dropped, and its bit is given back. -/
theorem gives (hK : K.Lawful) (h : K.Owing s owed b) {k : Nat} {handle : HandleKind}
    {block : Block} (hh : s.handles[k]? = some (handle, block)) (hone : s.blocks.count block = 1) :
    ∃ arena b', Completes (K.dropBlock s.alive block) s.arena arena () ∧
      K.Moves s b (.drop k)
        { s with
          arena
          counter := Function.update s.counter block 0
          handles := s.handles.eraseIdx k
          dropped := s.dropped ++ [s.value block] } b' ∧
      b'.live = b.live.erase block ∧ b'.listed = b.listed ∧ b'.parked = b.parked ∧
      (K.view arena).size = (K.view s.arena).size ∧
      (s.alive = false → (K.view arena).Leftover b'.live) := by
  have hlive : block ∈ b.live := (h.live block).mpr (Or.inl (Session.mem_blocks hh))
  by_cases ha : s.alive = true
  · obtain ⟨arena, hcall, hk, hsize⟩ := hK.dropBlock (h.alive ha) hlive
    rw [← ha] at hcall
    refine ⟨arena, _, hcall, .dropBlock hh hone ha hk hsize, Book.live_give .., Book.listed_give ..,
      Book.parked_give .., hsize, fun hg => ?_⟩
    rw [ha] at hg
    cases hg
  · have ha : s.alive = false := by simpa using ha
    obtain ⟨arena, hcall, hl, hsize⟩ := hK.dropLast (h.gone ha) hlive
    have hm := Kind.Moves.dropLast hh hone ha hl hcall hsize
    rw [← ha] at hcall
    exact ⟨arena, _, hcall, hm, rfl, rfl, rfl, hsize, fun _ => hl⟩

theorem moves (hK : K.Lawful) (h : K.Owing s owed b) (ho : s.Offered K act) :
    ∃ s' b', K.Moves s b act s' b' ∧ Yields (fun fuel => s.exec K fuel act) s' := by
  cases act with
  | alloc kind value =>
    obtain ⟨ha, handle, hh⟩ := ho
    obtain ⟨n, b', p, i, rest, arena, hf, hfree, hi, hnew, hcall, hk, hsize⟩ :=
      hK.findPlace (h.alive ha) (h.length_listed_le ha)
    have hexec : (fun fuel => s.exec K fuel (.alloc kind value)) =
        fun fuel => s.alloc K fuel handle value := by
      simp only [Session.exec, hh, ha, ite_true]
    rw [hexec]
    refine ⟨_, _, .alloc ha hh hf hfree hi hnew hk hsize, ?_⟩
    apply Session.alloc_yields hcall
    apply h.counter_zero
    rw [← hf.live]
    exact hnew
  | clone k =>
    obtain ⟨handle, block, hh, hc⟩ := ho
    refine ⟨_, _, .clone hh hc, .now fun fuel => ?_⟩
    simp only [Session.exec, hh, hc, ite_true, Session.clone,
      HandleKind.clone_of_lt hc (h.counter_lt block)]
  | write k value =>
    obtain ⟨handle, block, hh, hc⟩ := ho
    refine ⟨_, _, .write hh hc, .now fun fuel => ?_⟩
    simp only [Session.exec, hh, hc, Bool.false_eq_true, ite_false]
  | drop k =>
    obtain ⟨handle, block, hh⟩ := ho
    have hpos : 0 < s.blocks.count block := List.count_pos_iff.mpr (Session.mem_blocks hh)
    simp only [Session.exec, hh]
    by_cases hmany : 1 < s.blocks.count block
    · refine ⟨_, _, .dropHandle hh hmany, Session.drop_yields_many ?_ ?_ (h.counter_lt block)⟩
      · exact h.cloneable_of_many (List.mem_of_getElem? hh) hmany
      · rw [h.counter block]
        exact hmany
    · have hone : s.blocks.count block = 1 := by omega
      have hone' : s.counter block = 1 := (h.counter block).trans hone
      obtain ⟨arena, b', hcall, hm, -⟩ := h.gives hK hh hone
      exact ⟨_, b', hm, Session.drop_yields_last hcall hone'⟩
  | shrink =>
    have ha : s.alive = true := ho
    obtain ⟨arena, r, hcall, hk, hsize⟩ := hK.shrinkToFit (h.alive ha) (h.length_listed_le ha)
    have hexec : (fun fuel => s.exec K fuel .shrink) = fun fuel => s.shrink K fuel := by
      simp only [Session.exec, ha, ite_true]
    rw [hexec]
    exact ⟨_, _, .shrink ha hk hsize, Session.shrink_yields hcall⟩
  | release =>
    have ha : s.alive = true := ho
    obtain ⟨arena, hcall, hl, hsize⟩ := hK.release (h.alive ha)
    refine ⟨_, _, .release ha hl hsize, ?_⟩
    simp only [Session.exec, ha, ite_true]
    exact Session.release_yields hcall

/-! ## The invariant is kept -/

theorem insert (h : K.Owing s owed b) {handle : HandleKind} {block : Block} {n : Nat}
    (hn : n = s.blocks.count block + 1) (hsame : ∀ x ∈ s.handles, x.2 = block → x.1 = handle)
    (hsingle : handle.cloneable = false → s.blocks.count block = 0) :
    (∀ x, Function.update s.counter block n x = (block :: s.blocks).count x) ∧
      (∀ x ∈ (handle, block) :: s.handles, ∀ y ∈ (handle, block) :: s.handles,
        x.2 = y.2 → x.1 = y.1) ∧
      ∀ x ∈ (handle, block) :: s.handles, x.1.cloneable = false →
        (block :: s.blocks).count x.2 = 1 := by
  have hcount : ∀ x, (block :: s.blocks).count x = s.blocks.count x + if block = x then 1 else 0 := by
    intro x
    rw [List.count_cons]
    simp
  refine ⟨fun x => ?_, fun x hx y hy e => ?_, fun x hx hc => ?_⟩
  · rw [hcount]
    by_cases e : x = block
    · rw [e, Function.update_self, if_pos rfl, hn]
    · rw [Function.update_of_ne e, if_neg fun e' => e e'.symm, h.counter x, Nat.add_zero]
  · rcases List.mem_cons.mp hx with rfl | hx
    · rcases List.mem_cons.mp hy with rfl | hy
      · rfl
      · exact (hsame y hy e.symm).symm
    · rcases List.mem_cons.mp hy with rfl | hy
      · exact hsame x hx e
      · exact h.same x hx y hy e
  · rw [hcount]
    rcases List.mem_cons.mp hx with rfl | hx
    · rw [if_pos rfl, hsingle hc]
    · have hne : block ≠ x.2 := by
        intro e
        have hzero := hsingle (hsame x hx e.symm ▸ hc)
        rw [e, List.count_eq_zero] at hzero
        exact hzero (List.mem_map_of_mem hx)
      rw [if_neg hne, h.single x hx hc]

theorem erase (h : K.Owing s owed b) {k : Nat} {handle : HandleKind} {block : Block}
    (hh : s.handles[k]? = some (handle, block)) {counter : Block → Nat}
    (hcounter : counter = Function.update s.counter block (s.counter block - 1)) :
    (∀ x, counter x = ((s.handles.eraseIdx k).map Prod.snd).count x) ∧
      (∀ x ∈ s.handles.eraseIdx k, ∀ y ∈ s.handles.eraseIdx k, x.2 = y.2 → x.1 = y.1) ∧
      ∀ x ∈ s.handles.eraseIdx k, x.1.cloneable = false →
        ((s.handles.eraseIdx k).map Prod.snd).count x.2 = 1 := by
  have hsub : ∀ x ∈ s.handles.eraseIdx k, x ∈ s.handles :=
    fun x hx => (Session.handles_perm hh).mem_iff.mp (List.mem_cons_of_mem _ hx)
  have hcount : ∀ x, s.blocks.count x =
      ((s.handles.eraseIdx k).map Prod.snd).count x + if block = x then 1 else 0 := by
    intro x
    rw [← (Session.blocks_perm hh).count_eq x, List.count_cons]
    simp
  refine ⟨fun x => ?_, fun x hx y hy => h.same x (hsub x hx) y (hsub y hy), fun x hx hc => ?_⟩
  · have hx := h.counter x
    have hb := h.counter block
    rw [hcount x] at hx
    rw [hcounter]
    by_cases e : x = block
    · subst e
      rw [Function.update_self, hx, if_pos rfl]
      omega
    · rw [Function.update_of_ne e, hx, if_neg fun e' => e e'.symm]
      omega
  · have hone := h.single x (hsub x hx) hc
    have hpos : 0 < ((s.handles.eraseIdx k).map Prod.snd).count x.2 :=
      List.count_pos_iff.mpr (List.mem_map_of_mem hx)
    rw [hcount x.2] at hone
    omega

theorem counter_pred (h : K.Owing s owed b) {block : Block} (hlast : s.blocks.count block = 1) :
    Function.update s.counter block 0 = Function.update s.counter block (s.counter block - 1) := by
  rw [h.counter block, hlast]

theorem live_erase (h : K.Owing s owed b) {k : Nat} {handle : HandleKind} {block : Block}
    (hh : s.handles[k]? = some (handle, block)) (hlast : s.blocks.count block = 1) (x : Block) :
    x ∈ b.live.erase block ↔ x ∈ (s.handles.eraseIdx k).map Prod.snd ∨ x ∈ owed := by
  have hout : block ∉ owed := fun hm => h.apart block hm (Session.mem_blocks hh)
  have hperm := Session.blocks_perm hh
  have hnone : block ∉ (s.handles.eraseIdx k).map Prod.snd := by
    rw [← hperm.count_eq, List.count_cons_self] at hlast
    exact List.count_eq_zero.mp (by omega)
  rw [h.nodup.mem_erase_iff, h.live x, ← hperm.mem_iff, List.mem_cons]
  constructor
  · rintro ⟨hne, (e | hx) | hx⟩
    · exact absurd e hne
    · exact Or.inl hx
    · exact Or.inr hx
  · rintro (hx | hx)
    · refine ⟨fun e => hnone (e ▸ hx), Or.inl (Or.inr hx)⟩
    · exact ⟨fun e => hout (e ▸ hx), Or.inr hx⟩

theorem apart_erase (h : K.Owing s owed b) {k : Nat} {handle : HandleKind} {block : Block}
    (hh : s.handles[k]? = some (handle, block)) :
    ∀ x ∈ owed, x ∉ (s.handles.eraseIdx k).map Prod.snd := by
  intro x hx hm
  exact h.apart x hx ((Session.blocks_perm hh).mem_iff.mp (List.mem_cons_of_mem _ hm))

theorem alive_of_moves (h : K.Owing s owed b) (hm : K.Moves s b act s' b') (ha : s'.alive = true) :
    K.Alive s'.arena b' := by
  cases hm with
  | alloc ha' hh hf hfree hi hnew hk => exact hk
  | clone | write | dropHandle => exact h.alive ha
  | dropBlock hh hlast ha' hk => exact hk
  | dropLast hh hlast ha' =>
    have ha : s.alive = true := ha
    rw [ha] at ha'
    cases ha'
  | shrink ha' hk => exact hk
  | release => cases ha

theorem of_moves (h : K.Owing s owed b) (hm : K.Moves s b act s' b') (hf : s'.Fits K) :
    K.Owing s' owed b' := by
  cases hm with
  | @alloc kind handle value n b₁ p i rest arena ha hh hfetch hfree hi hnew hk hsize =>
    have hlive : b₁.live = b.live := hfetch.live
    have hmem : ∀ x, x ∈ b₁.live ↔ x ∈ s.blocks ∨ x ∈ owed := by
      rw [hlive]
      exact h.live
    have hout : (p, i) ∉ s.blocks := fun hm => hnew ((hmem _).mpr (Or.inl hm))
    have hother : ∀ x ∈ s.handles, x.2 ≠ (p, i) := by
      rintro x hx e
      apply hout
      rw [← e]
      exact List.mem_map_of_mem hx
    obtain ⟨hcounter, hsame, hsingle⟩ := h.insert (n := 1)
      (congrArg (· + 1) (List.count_eq_zero.mpr hout).symm)
      (fun x hx e => absurd e (hother x hx)) (fun _ => List.count_eq_zero.mpr hout)
    refine ⟨fun _ => hk, fun hg => ?_, fun x => ?_, fun x hx hm => ?_, hcounter, hsame, hsingle,
      h.panicked, hf⟩
    · have hg : s.alive = false := hg
      rw [ha] at hg
      cases hg
    · show x ∈ (p, i) :: b₁.live ↔ x ∈ (p, i) :: s.blocks ∨ x ∈ owed
      rw [List.mem_cons, List.mem_cons, hmem x, or_assoc]
    · rcases List.mem_cons.mp hm with rfl | hm
      · exact hnew ((hmem _).mpr (Or.inr hx))
      · exact h.apart x hx hm
  | @clone k handle block hh hc =>
    have hin : (handle, block) ∈ s.handles := List.mem_of_getElem? hh
    obtain ⟨hcounter, hsame, hsingle⟩ := h.insert (congrArg (· + 1) (h.counter block))
      (fun x hx e => h.same x hx _ hin e) (fun hnot => absurd hc (by simp [hnot]))
    have hmem : ∀ x, x ∈ block :: s.blocks ↔ x ∈ s.blocks := by
      intro x
      rw [List.mem_cons, or_iff_right_of_imp]
      rintro rfl
      exact Session.mem_blocks hh
    refine ⟨h.alive, h.gone, fun x => ?_, fun x hx hm => h.apart x hx ((hmem x).mp hm), hcounter,
      hsame, hsingle, h.panicked, hf⟩
    show x ∈ b.live ↔ x ∈ block :: s.blocks ∨ x ∈ owed
    rw [h.live x, hmem x]
  | @write k handle block value hh hc =>
    exact ⟨h.alive, h.gone, h.live, h.apart, h.counter, h.same, h.single, h.panicked, hf⟩
  | @dropHandle k handle block hh hmany =>
    obtain ⟨hcounter, hsame, hsingle⟩ := h.erase hh rfl
    refine ⟨h.alive, h.gone, fun x => ?_, h.apart_erase hh, hcounter, hsame, hsingle, h.panicked,
      hf⟩
    have hperm := Session.blocks_perm hh
    have hmem : x ∈ s.blocks ↔ x ∈ (s.handles.eraseIdx k).map Prod.snd := by
      rw [← hperm.mem_iff, List.mem_cons, or_iff_right_of_imp]
      rintro rfl
      rw [← hperm.count_eq, List.count_cons_self] at hmany
      exact List.count_pos_iff.mp (by omega)
    show x ∈ b.live ↔ x ∈ (s.handles.eraseIdx k).map Prod.snd ∨ x ∈ owed
    rw [h.live x, hmem]
  | @dropBlock k handle block arena hh hlast ha hk hsize =>
    obtain ⟨hcounter, hsame, hsingle⟩ := h.erase hh (h.counter_pred hlast)
    refine ⟨fun _ => hk, fun hg => ?_, fun x => ?_, h.apart_erase hh, hcounter, hsame, hsingle,
      h.panicked, hf⟩
    · have hg : s.alive = false := hg
      rw [ha] at hg
      cases hg
    · rw [Book.live_give]
      exact h.live_erase hh hlast x
  | @dropLast k handle block arena hh hlast ha hl hcall hsize =>
    obtain ⟨hcounter, hsame, hsingle⟩ := h.erase hh (h.counter_pred hlast)
    refine ⟨fun hg => ?_, fun _ => hl, h.live_erase hh hlast, h.apart_erase hh, hcounter, hsame,
      hsingle, h.panicked, hf⟩
    have hg : s.alive = true := hg
    rw [ha] at hg
    cases hg
  | shrink ha hk hsize =>
    refine ⟨fun _ => hk, fun hg => ?_, h.live, h.apart, h.counter, h.same, h.single,
      h.panicked, hf⟩
    have hg : s.alive = false := hg
    rw [ha] at hg
    cases hg
  | release ha hl hsize =>
    refine ⟨fun hg => ?_, fun _ => hl, h.live, h.apart, h.counter, h.same, h.single,
      h.panicked, hf⟩
    cases hg

/-- The last handle of a block is gone, and its bit is still clear. -/
theorem owe (h : K.Owing s owed b) {k : Nat} {handle : HandleKind} {block : Block}
    {dropped : List (Option V)} (hh : s.handles[k]? = some (handle, block))
    (hlast : s.blocks.count block = 1)
    (hf : { s with
      counter := Function.update s.counter block 0
      handles := s.handles.eraseIdx k
      dropped }.Fits K) :
    K.Owing { s with
      counter := Function.update s.counter block 0
      handles := s.handles.eraseIdx k
      dropped } (block :: owed) b := by
  obtain ⟨hcounter, hsame, hsingle⟩ := h.erase hh (h.counter_pred hlast)
  have hperm := Session.blocks_perm hh
  refine ⟨h.alive, h.gone, fun x => ?_, fun x hx => ?_, hcounter, hsame, hsingle, h.panicked, hf⟩
  · show x ∈ b.live ↔ x ∈ (s.handles.eraseIdx k).map Prod.snd ∨ x ∈ block :: owed
    rw [h.live x, ← hperm.mem_iff, List.mem_cons, List.mem_cons]
    tauto
  · show x ∉ (s.handles.eraseIdx k).map Prod.snd
    rcases List.mem_cons.mp hx with rfl | hx
    · rw [← hperm.count_eq, List.count_cons_self] at hlast
      exact List.count_eq_zero.mp (by omega)
    · exact h.apart_erase hh x hx

end Kind.Owing

namespace Kind.Sound

variable {σ V : Type} {K : Kind σ} {s s' : Session σ V} {b b' : Book} {act : SessionAct V}

theorem iff_owing : K.Sound s b ↔ K.Owing s [] b := by
  constructor
  · intro h
    exact ⟨h.alive, h.gone, by simpa using h.live, by simp, h.counter, h.same, h.single,
      h.panicked, h.fits⟩
  · intro h
    exact ⟨h.alive, h.gone, by simpa using h.live, h.counter, h.same, h.single, h.panicked, h.fits⟩

theorem owing (h : K.Sound s b) : K.Owing s [] b := iff_owing.mp h

theorem start (hK : K.Lawful) {cap : Nat} (hf : (Session.start K cap : Session σ V).Fits K) :
    ∃ pages, K.Sound (Session.start K cap : Session σ V) (.start pages) ∧
      pages.length = pagesFor cap := by
  obtain ⟨pages, hk, hlen⟩ := hK.start cap
  refine ⟨pages, ⟨fun _ => hk, fun h => (by cases h), fun x => Iff.rfl, fun x => rfl, ?_, ?_, rfl, hf⟩,
    hlen⟩
  · intro h hh
    cases hh
  · intro h hh
    cases hh

theorem nodup (h : K.Sound s b) : b.live.Nodup := h.owing.nodup

theorem length_listed_le (h : K.Sound s b) (ha : s.alive = true) : b.listed.length ≤ maxPages :=
  h.owing.length_listed_le ha

theorem counter_zero (h : K.Sound s b) {x : Block} (hx : x ∉ b.live) : s.counter x = 0 :=
  h.owing.counter_zero hx

theorem page_kept (h : K.Sound s b) {x : Block} (hx : x ∈ s.blocks) :
    x.1 < (K.view s.arena).size ∧ x.1 ∉ (K.view s.arena).freed.map Freed.page :=
  h.owing.page_kept ((h.live x).mpr hx)

theorem length_live (h : K.Sound s b) : s.live.length = b.live.length := by
  have hperm : s.live.Perm b.live := by
    apply (List.perm_ext_iff_of_nodup (List.nodup_dedup _) h.nodup).mpr
    intro x
    rw [List.mem_dedup, h.live x]
  exact hperm.length_eq

theorem moves (hK : K.Lawful) (h : K.Sound s b) (ho : s.Offered K act) :
    ∃ s' b', K.Moves s b act s' b' ∧ Yields (fun fuel => s.exec K fuel act) s' :=
  h.owing.moves hK ho

theorem alive_of_moves (h : K.Sound s b) (hm : K.Moves s b act s' b') (ha : s'.alive = true) :
    K.Alive s'.arena b' := h.owing.alive_of_moves hm ha

theorem of_moves (h : K.Sound s b) (hm : K.Moves s b act s' b') (hf : s'.Fits K) :
    K.Sound s' b' := iff_owing.mpr (h.owing.of_moves hm hf)

theorem step (hK : K.Lawful) (h : K.Sound s b) {label : Nat × SessionAct V}
    (hs : s.step K label = some s') : ∃ b', K.Moves s b label.2 s' b' ∧ K.Sound s' b' := by
  obtain ⟨he, hf⟩ := Session.exec_of_step hs
  obtain ⟨s₁, b', hm, hy⟩ := h.moves hK (Session.offered_of_exec he)
  obtain rfl := hy.eq_of_some he
  exact ⟨b', hm, h.of_moves hm hf⟩

theorem of_reach (hK : K.Lawful) {cap : Nat} {C : Session σ V → Nat × SessionAct V → Prop}
    (h : (sessionMachine K cap V).Reach C s) : ∃ b, K.Sound s b := by
  apply h.invariant
  · rintro s ⟨rfl, hf⟩
    obtain ⟨pages, hs, -⟩ := start hK hf
    exact ⟨_, hs⟩
  · rintro s label s' - ⟨b, hs⟩ - he
    obtain ⟨b', -, hs'⟩ := hs.step hK he
    exact ⟨b', hs'⟩

end Kind.Sound

end MemoryPools
