import RasPiArduino.ServerDescriptors

/-! When a sketch that only reads notices that a peer has closed. -/
namespace RasPiArduino.BridgeServer
open RasPiArduino.Net RasPiArduino.Transition RasPiArduino.Table

def Label.reads : Label → Bool
  | .arrive _ | .poll _ | .handle _ | .finish => true
  | .copyRead _ _ | .copyReadBlock _ _ _ | .copyConnected _ => true
  | _ => false

/-- What such runs keep besides: a node with its flag set has its connection open, one whose
flag was cleared leaves the list with the call that cleared it, and a connection has one
descriptor, once it is accepted. -/
structure Steady (s : State) : Prop where
  apart : Apart s
  flagged : ∀ n ∈ s.clients, n.client.flag = true → n = ⟨⟨-1, true⟩, none⟩ ∨
    ∃ c, n.conn = some c ∧ fileAt s.kernel n.client.sockfd = some (.conn c)
  stopped : ∀ n ∈ s.clients, n.client.flag = false →
    ∃ fds, s.pc = .handling fds ∧ ∀ fd ∈ fds, n.client.sockfd ≠ (fd : Int)
  single : ∀ g g' c, fileAt s.kernel g = some (.conn c) → fileAt s.kernel g' = some (.conn c) →
    g = g'
  accepted : ∀ g c, fileAt s.kernel g = some (.conn c) →
    c ∉ s.kernel.backlog ∧ c < s.kernel.conns.length

variable {s t : State} {l : Label} {fd : Nat} {fds : List Nat} {junk : Int} {n : Node} {c i : Nat}

theorem fileAt_begun (std : List Bool) (g : Int) (c : Nat) :
    fileAt (begun std).kernel g ≠ some (.conn c) := by
  let files : List (Option File) := std.map fun b => if b then some File.other else none
  let k₁ : Kernel := ⟨install files .listener, [], [], false⟩
  intro hg
  have h₁ : fileAt k₁ g = some (.conn c) := fileAt_install_conn rfl (by simp) hg
  have h₀ : fileAt ⟨files, [], [], false⟩ g = some (.conn c) :=
    fileAt_install_conn (show k₁.files = _ from rfl) (by simp) h₁
  cases fileAt_std h₀

theorem steady_begun (std : List Bool) : Steady (begun std) where
  apart := apart_begun std
  flagged n hn := by simp [begun] at hn
  stopped n hn := by simp [begun] at hn
  single g g' c hg := absurd hg (fileAt_begun std g c)
  accepted g c hg := absurd hg (fileAt_begun std g c)

theorem Steady.numberFresh (h : Steady s) : NumberFresh s l t := by
  rintro junk fd fds - - - - n hn hf he
  obtain rfl | ⟨c, -, hfile⟩ := h.flagged n hn hf
  · cases he
  · exact absurd he (ne_freeFd hfile)

theorem Steady.frame (h : Steady s) (hapart : Apart t) (hk : SameTable s.kernel t.kernel)
    (hc : t.clients = s.clients) (hpc : s.pc = .idle) : Steady t := by
  have hfile := fileAt_congr hk.files
  refine ⟨hapart, ?_, ?_, ?_, ?_⟩
  · rw [hc]
    intro n hn hf
    rw [hfile]
    exact h.flagged n hn hf
  · rw [hc]
    intro n hn hf
    obtain ⟨fds, hfds, -⟩ := h.stopped n hn hf
    simp [hpc] at hfds
  · intro g g' c hg hg'
    rw [hfile] at hg hg'
    exact h.single g g' c hg hg'
  · intro g c hg
    rw [hfile] at hg
    rw [hk.backlog, hk.count]
    exact h.accepted g c hg

theorem Steady.arrive (h : Steady s) (a : Arrival)
    (hapart : Apart { s with kernel := Net.arrive s.kernel a }) :
    Steady { s with kernel := Net.arrive s.kernel a } := by
  have hfile := fileAt_congr (arrive_table s.kernel a).1
  refine ⟨hapart, ?_, h.stopped, ?_, ?_⟩
  · intro n hn hf
    simp only [hfile]
    exact h.flagged n hn hf
  · intro g g' c hg hg'
    rw [hfile] at hg hg'
    exact h.single g g' c hg hg'
  · intro g c hg
    rw [hfile] at hg
    exact arrive_spent (h.accepted g c hg) a

theorem Steady.left (h : Steady s) (hpc : s.pc = .handling (fd :: fds)) (hn : n ∈ s.clients)
    (hf : n.client.flag = false) :
    n.client.sockfd ≠ (fd : Int) ∧ ∀ g ∈ fds, n.client.sockfd ≠ (g : Int) := by
  obtain ⟨fds', hfds, hne⟩ := h.stopped n hn hf
  obtain rfl : fd :: fds = fds' := by simpa [hpc] using hfds
  exact ⟨hne fd List.mem_cons_self, fun g hg => hne g (List.mem_cons_of_mem fd hg)⟩

/-- accept takes a connection that has no descriptor yet, and a number that is free. -/
theorem Steady.accept (h : Steady s) (hpc : s.pc = .handling (fd :: fds))
    (hapart : Apart { acceptClient s with pc := .handling fds }) :
    Steady { acceptClient s with pc := .handling fds } := by
  have hleft : ∀ n ∈ s.clients, n.client.flag = false →
      ∃ fds', Pc.handling fds = .handling fds' ∧ ∀ fd ∈ fds', n.client.sockfd ≠ (fd : Int) :=
    fun n hn hf => ⟨fds, rfl, (h.left hpc hn hf).2⟩
  obtain ⟨hb, ha⟩ | ⟨c, cs, k, hb, hf, hkb, hkl, -, ha⟩ := acceptClient_cases s
  · rw [ha] at hapart ⊢
    refine ⟨hapart, fun n hn hfl => ?_, fun n hn hfl => ?_, h.single, h.accepted⟩
    · obtain hn | rfl : n ∈ s.clients ∨ n = ⟨⟨-1, true⟩, none⟩ := by simpa using hn
      · exact h.flagged n hn hfl
      · exact .inl rfl
    · obtain hn | rfl : n ∈ s.clients ∨ n = ⟨⟨-1, true⟩, none⟩ := by simpa using hn
      · exact hleft n hn hfl
      · cases hfl
  · have hfile (g : Int) := fileAt_install hf g
    have hbn := h.apart.backlog
    rw [hb] at hbn
    have hold : ∀ g d, fileAt s.kernel g = some (.conn d) → d ≠ c ∧ d ∉ cs ∧
        d < s.kernel.conns.length := by
      intro g d hg
      obtain ⟨hnb, hlt⟩ := h.accepted g d hg
      rw [hb, List.mem_cons, not_or] at hnb
      exact ⟨hnb.1, hnb.2, hlt⟩
    have hkeep {g : Int} {d : Nat} (hg : fileAt s.kernel g = some (.conn d)) :
        fileAt k g = some (.conn d) := by
      rw [hfile, if_neg (ne_freeFd hg), hg]
    have hflagged : ∀ n ∈ s.clients, n.client.flag = true → n = ⟨⟨-1, true⟩, none⟩ ∨
        ∃ c, n.conn = some c ∧ fileAt k n.client.sockfd = some (.conn c) := fun n hn hfl =>
      (h.flagged n hn hfl).imp_right fun ⟨d, hd, hg⟩ => ⟨d, hd, hkeep hg⟩
    have hsingle : ∀ g g' d, fileAt k g = some (.conn d) → fileAt k g' = some (.conn d) →
        g = g' := by
      intro g g' d hg hg'
      rw [hfile] at hg hg'
      split at hg <;> split at hg'
      · next h₁ h₂ => exact h₁.trans h₂.symm
      · obtain rfl : c = d := by simpa using hg
        exact absurd rfl (hold g' c hg').1
      · obtain rfl : c = d := by simpa using hg'
        exact absurd rfl (hold g c hg).1
      · exact h.single g g' d hg hg'
    have haccepted : ∀ g d, fileAt k g = some (.conn d) → d ∉ k.backlog ∧ d < k.conns.length := by
      intro g d hg
      rw [hkb, hkl]
      rw [hfile] at hg
      split at hg
      · obtain rfl : c = d := by simpa using hg
        exact ⟨(List.nodup_cons.mp hbn.1).1, hbn.2 c List.mem_cons_self⟩
      · exact (hold g d hg).2
    obtain ⟨-, ha⟩ | ⟨-, ha⟩ := ha <;> rw [ha] at hapart ⊢
    · refine ⟨hapart, fun n hn hfl => ?_, fun n hn hfl => ?_, hsingle, haccepted⟩
      · obtain hn | rfl : n ∈ s.clients ∨ n = ⟨⟨freeFd s.kernel.files, true⟩, some c⟩ := by
          simpa using hn
        · exact hflagged n hn hfl
        · exact .inr ⟨c, rfl, by rw [hfile, if_pos rfl]⟩
      · obtain hn | rfl : n ∈ s.clients ∨ n = ⟨⟨freeFd s.kernel.files, true⟩, some c⟩ := by
          simpa using hn
        · exact hleft n hn hfl
        · cases hfl
    · exact ⟨hapart, hflagged, hleft, hsingle, haccepted⟩

theorem Steady.found (h : Steady s) (hpc : s.pc = .handling (fd :: fds)) {i : Nat} {n : Node}
    (hn : s.clients[i]? = some n) (hs : n.client.sockfd = (fd : Int)) :
    n.client.flag = true ∧ ∃ c, n.conn = some c ∧ fileAt s.kernel fd = some (.conn c) := by
  have hmem := List.mem_of_getElem? hn
  have hflag : n.client.flag = true := by
    rw [← Bool.not_eq_false]
    exact fun hf => (h.left hpc hmem hf).1 hs
  obtain rfl | ⟨c, hc, hfile⟩ := h.flagged n hmem hflag
  · cases hs
  · exact ⟨hflag, c, hc, hs ▸ hfile⟩

theorem Steady.data (h : Steady s) (hpc : s.pc = .handling (fd :: fds))
    (hapart : Apart { incomingData s fd junk with pc := .handling fds }) :
    Steady { incomingData s fd junk with pc := .handling fds } := by
  obtain he | ⟨i, n, hn, hns, he⟩ := incomingData_cases s fd junk <;> rw [he] at hapart ⊢
  · exact ⟨hapart, h.flagged, fun n hn hf => ⟨fds, rfl, (h.left hpc hn hf).2⟩, h.single, h.accepted⟩
  · obtain ⟨-, c, hc, hfile⟩ := h.found hpc hn hns
    obtain ⟨hb, hcs, -⟩ := stop_table n.client s.kernel
    refine ⟨hapart, fun m hm hf => ?_, fun m hm hf => ?_, fun g g' d hg hg' =>
      h.single g g' d (fileAt_stop_some hg) (fileAt_stop_some hg'), fun g d hg => ?_⟩
    · obtain ⟨j, hj⟩ := List.getElem?_of_mem hm
      obtain ⟨-, rfl⟩ | ⟨hji, hj⟩ := (row_set hn).mp hj
      · cases hf
      · refine (h.flagged m (List.mem_of_getElem? hj) hf).imp_right fun ⟨d, hd, hg⟩ => ?_
        refine ⟨d, hd, ?_⟩
        obtain ⟨-, hsame, -⟩ | hz := fileAt_stop n.client s.kernel m.client.sockfd
        · rw [hsame, hns, hfile] at hg
          obtain rfl : c = d := by simpa using hg
          exact absurd (place_unique h.apart.conns hj hn hd hc) hji
        · exact hz.trans hg
    · obtain ⟨j, hj⟩ := List.getElem?_of_mem hm
      refine ⟨fds, rfl, ?_⟩
      obtain ⟨-, rfl⟩ | ⟨-, hj⟩ := (row_set hn).mp hj
      · intro g hg hsame
        rw [show (n.client.stop s.kernel).1.sockfd = n.client.sockfd from rfl, hns,
          Int.ofNat_inj] at hsame
        exact (List.nodup_cons.mp (h.apart.events _ hpc).1).1 (hsame ▸ hg)
      · exact (h.left hpc (List.mem_of_getElem? hj) hf).2
    · dsimp only
      rw [hb, hcs]
      exact h.accepted g d (fileAt_stop_some hg)

theorem steady_step (h : Steady s) (hl : l.reads = true) (hs : step s l = some t) : Steady t := by
  have hapart := apart_step h.apart hs h.numberFresh
  cases step_move hs with
  | arrive a => exact h.arrive a hapart
  | poll fds hpc hr =>
    obtain ⟨hf, hb, hl⟩ := reportedAll_other fds s.kernel
    have hfile := fileAt_congr hf
    refine ⟨hapart, fun n hn hfl => ?_, fun n hn hfl => ?_, fun g g' c hg hg' => ?_,
      fun g c hg => ?_⟩
    · dsimp only
      rw [hfile]
      exact h.flagged n hn hfl
    · obtain ⟨fds', hfds, -⟩ := h.stopped n hn hfl
      simp [hpc] at hfds
    · rw [hfile] at hg hg'
      exact h.single g g' c hg hg'
    · rw [hfile] at hg
      dsimp only
      rw [hb, hl]
      exact h.accepted g c hg
  | accept junk fd fds hpc hfd => exact h.accept hpc hapart
  | data junk fd fds hpc hfd => exact h.data hpc hapart
  | finish hpc =>
    have hmem : ∀ n ∈ (finish s).clients, n ∈ s.clients ∧ n.client.flag = true := by
      intro n hn
      simp only [finish, cleanup_eq, List.mem_filter] at hn
      exact ⟨hn.1, (connectedNode_iff.mp hn.2).1⟩
    refine ⟨hapart, fun n hn hfl => h.flagged n (hmem n hn).1 hfl, fun n hn hfl => ?_, h.single,
      h.accepted⟩
    rw [(hmem n hn).2] at hfl
    cases hfl
  | write data hpc => cases hl
  | copy l k copies hpc hl' hk => exact h.frame hapart hk rfl hpc
  | copyStop i c hpc hc => cases hl

end RasPiArduino.BridgeServer
