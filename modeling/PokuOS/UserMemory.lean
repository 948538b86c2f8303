import PokuOS.ForkCopy
import PokuOS.UserString

/-!
# Memories of their own

Programs reach their bytes through page tables, and all bytes are in one set of frames. Still every
address space in use is **an array of bytes of its own** (`memories_private`).
-/

namespace PokuOS

open Function Option

namespace Vm

/-- The machine stores a byte for a user program, or faults. -/
def userStore (vm : Vm) (c : Contents) (a : ℕ) (b : UInt8) : Option Contents :=
  (vm.lookup (a % 2 ^ 32)).bind fun pte =>
    if pte.user ∧ pte.rw then
      some (update c pte.frame fun o => if o.val = a % 4096 then b else c pte.frame o)
    else none

/-- What a user program reads at `a` when the directory `d` is loaded. -/
def userLoad (vm : Vm) (c : Contents) (d a : ℕ) : Option UInt8 :=
  ({ vm with cr3 := d } : Vm).userByte c a

end Vm

/-- An address is two entries and an offset. -/
theorem address_ext {a b : ℕ} (ha : a < 2 ^ 32) (hb : b < 2 ^ 32) (hpd : pdIdx a = pdIdx b)
    (hpt : ptIdx a = ptIdx b) (hoff : a % 4096 = b % 4096) : a = b := by
  simp only [pdIdx, ptIdx, Fin.ext_iff, Fin.val_ofNat] at hpd hpt
  omega

/-- **A frame is the page of one address**: one word of one table of one directory owns it. -/
theorem Owned.lookup_inj {owner : ℕ → Option Owner} {h : Holders} {vm : Vm} (ho : Owned owner h vm)
    {d d' a x : ℕ} {p q : Pte} (hd : d ∈ h.dirs) (hd' : d' ∈ h.dirs) (ha : a ∈ userRange)
    (hx : x ∈ userRange) (hp : ({ vm with cr3 := d } : Vm).lookup a = some p)
    (hq : ({ vm with cr3 := d' } : Vm).lookup x = some q) (hframe : p.frame = q.frame) :
    d = d' ∧ pdIdx a = pdIdx x ∧ ptIdx a = ptIdx x := by
  obtain ⟨e, he, hp⟩ := bind_eq_some_iff.mp hp
  obtain ⟨e', he', hq⟩ := bind_eq_some_iff.mp hq
  have hpage := (ho.page d hd _ (userIdx_pdIdx ha) e he _ p hp).1
  rw [hframe, (ho.page d' hd' _ (userIdx_pdIdx hx) e' he' _ q hq).1] at hpage
  obtain ⟨htables, hpt⟩ := Owner.userPage.inj (some.inj hpage)
  have htable := ho.table d hd _ (userIdx_pdIdx ha) e he
  rw [← htables, ho.table d' hd' _ (userIdx_pdIdx hx) e' he'] at htable
  obtain ⟨hdirs, hpd⟩ := Owner.userTable.inj (some.inj htable)
  exact ⟨hdirs.symm, hpd.symm, hpt.symm⟩

/-- **Memories are private.** In every reachable state, a byte that the running program stores is
what it reads there, and every other byte that it or any other live task can read is what it was. -/
theorem memories_private {L : Layout} {st : FrameState} (h : (frameSystem L).Reachable st)
    {c c' : Contents} {a x d : ℕ} {b : UInt8} (ha : a ∈ userRange) (hx : x ∈ userRange)
    (hstore : st.kernel.vm.userStore c a b = some c') (hd : d ∈ st.dirs) :
    st.kernel.vm.userLoad c' d x =
      if d = st.kernel.vm.cr3 ∧ x = a then some b else st.kernel.vm.userLoad c d x := by
  obtain ⟨owner, dirs, top, hk, -, -⟩ := FrameState.isolated_of_reachable h
  have hdir : d ∈ dirs := by
    rcases hd with rfl | ⟨i, hi, rfl⟩
    · exact hk.spaced.root
    · exact hk.spaced.mem i hi
  have halt : a < 2 ^ 32 := ha.2.trans (by decide)
  have hxlt : x < 2 ^ 32 := hx.2.trans (by decide)
  unfold Vm.userStore at hstore
  unfold Vm.userLoad Vm.userByte
  rw [Nat.mod_eq_of_lt halt] at hstore
  rw [Nat.mod_eq_of_lt hxlt]
  obtain ⟨p, hp, hset⟩ := bind_eq_some_iff.mp hstore
  obtain ⟨hbits, hset⟩ := ite_none_right_eq_some.mp hset
  cases hset
  cases hq : ({ st.kernel.vm with cr3 := d } : Vm).lookup x with
  | none =>
    refine (if_neg ?_).symm
    rintro ⟨rfl, rfl⟩
    cases hq.symm.trans hp
  | some q =>
    simp only [bind_some]
    by_cases hframe : p.frame = q.frame
    · obtain ⟨rfl, hpd, hpt⟩ := hk.owned.lookup_inj hk.loaded hdir ha hx hp hq hframe
      have hsame : st.kernel.vm.lookup a = st.kernel.vm.lookup x := by
        rw [Vm.lookup, Vm.lookup, hpd, hpt]
      obtain rfl : p = q := some.inj (hp.symm.trans (hsame.trans hq))
      rw [if_pos hbits.1, if_pos hbits.1, update_self]
      by_cases hxa : x = a
      · simp [hxa]
      · rw [if_neg, if_neg fun hc => hxa hc.2]
        exact fun hoff => hxa (address_ext hxlt halt hpd.symm hpt.symm hoff)
    · rw [update_of_ne (Ne.symm hframe)]
      refine (if_neg ?_).symm
      rintro ⟨rfl, rfl⟩
      exact hframe (by rw [some.inj (hp.symm.trans hq)])

/-- A program stores a byte on its first page. -/
theorem memories_private_program : ∃ (st : FrameState) (c' : Contents),
    (frameSystem capsLayout).Reachable st ∧
    st.kernel.vm.userStore (fun _ _ => 0) 0x01000000 7 = some c' ∧
    st.kernel.vm.userLoad c' 1024 0x01000000 = some 7 := by
  obtain ⟨st, hst, hlive, hdir, hcr3, hstores⟩ :
      ∃ st ∈ (frameSystem capsLayout).run frameBoot programRun, st.kernel.sched.Live 0 ∧
        (st.kernel.sched.task (.slot 0)).cr3 = 1024 ∧ 1024 = st.kernel.vm.cr3 ∧
        (st.kernel.vm.userStore (fun _ _ => 0) 0x01000000 7).isSome := by
    decide +kernel
  obtain ⟨c', hstore⟩ := isSome_iff_exists.mp hstores
  have hreach := reachable_programRun hst
  refine ⟨st, c', hreach, hstore, ?_⟩
  rw [memories_private hreach ⟨by decide, by decide⟩ ⟨by decide, by decide⟩ hstore
    (.inr ⟨0, hlive, hdir⟩)]
  exact if_pos ⟨hcr3, rfl⟩

end PokuOS
