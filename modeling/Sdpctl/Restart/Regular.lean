import Sdpctl.Properties.Products
import Sdpctl.Restart.Converge

/-!
The rows and files of a reachable state are regular: whatever was interrupted,
and wherever, a restart finds what its repairs ask for.
-/

namespace Sdpctl

open FileTree Coop

variable {T : Terms} {L : Limits} {r : Role} {s s' : Shared}

/-- Nothing two levels below `products/` is a file. -/
def Disk.Flat (d : Disk) : Prop := ∀ a b, d.isFileAt ["products", a, b] = false

namespace Disk.Flat

variable {d d' : Disk}

theorem elsewhere (h : d.Flat) {p : Path} {x : Option Tree} (hroot : d'.root = d.root.set p x)
    (hp : ∀ a b, Apart ["products", a, b] p) : d'.Flat := by
  intro a b
  rw [isFileAt, get?_of_set hroot (hp a b)]
  exact h a b

theorem output (h : d.Flat) {a b : String} {x : Option Tree}
    (hroot : d'.root = d.root.set ["products", a, b] x) (hdir : d.root.IsDir ["products", a])
    (hx : ∀ t, x = some t → t.isDir = true) : d'.Flat := by
  intro a' b'
  by_cases hsame : a' = a ∧ b' = b
  · obtain ⟨rfl, rfl⟩ := hsame
    have hself : d'.get? ["products", a', b'] = x := by
      rw [get?, hroot]
      exact Tree.get?_set_self (p := ["products", a']) hdir
    unfold isFileAt
    rw [hself]
    cases x with
    | none => rfl
    | some t => simp [hx t rfl]
  · have hapart : Apart ["products", a', b'] ["products", a, b] := by
      simp only [apart_cons, apart_nil_left, or_false, ne_eq, not_true_eq_false, false_or]
      exact not_and_or.mp hsame
    rw [isFileAt, get?_of_set hroot hapart]
    exact h a' b'

theorem ensureDir (h : d.Flat) (hproducts : d.root.IsDir ["products"]) (a : String) :
    (d.ensureDir ["products", a]).Flat := by
  rcases ensureDir_cases d ["products", a] with heq | heq
  · rw [heq]
    exact h
  · rw [heq]
    intro a' b'
    by_cases hsame : a' = a
    · subst hsame
      have hnew : (d.put ["products", a'] (some (.dir 0 []))).get? ["products", a'] =
        some (.dir 0 []) := get?_put_self (p := ["products"]) hproducts
      have hnone :
          (d.put ["products", a'] (some (.dir 0 []))).get? ["products", a', b'] = none := by
        have hsplit := Tree.get?_append (d.put ["products", a'] (some (.dir 0 []))).root
          ["products", a'] [b']
        rw [get?] at hnew ⊢
        rw [hnew] at hsplit
        exact hsplit
      simp [isFileAt, hnone]
    · rw [isFileAt, get?_put_apart _ _ (by simp [hsame])]
      exact h a' b'

end Disk.Flat

theorem Removable.flat {p : Path} {d : Disk} {x : Option Tree} {u : Tree}
    (may : Removable r s p) (h : s.disk.Flat) (hroot : d.root = s.disk.root.set p x)
    (found : s.disk.get? p = some u) (hx : ∀ t, x = some t → t.isDir = true) : d.Flat := by
  cases may with
  | product run role path unreviewed =>
    subst path
    exact h.output hroot (Tree.isDir_of_get? (p := ["products", _]) found) hx
  | raw oid givenUp path =>
    rcases path with rfl | rfl
    · exact h.elsewhere hroot (by simp [msPathOf])
    · exact h.elsewhere hroot (by simp [trashPath])
  | entry name role path =>
    subst path
    exact h.elsewhere hroot (by simp [quarantineEntry])

theorem flat_keeps : unlimited.Keeps fun s => s.disk.Flat where
  start a b := rfl
  op := by
    intro r o c x s s' hinv h _ hallowed _ _ hexec
    cases hwrites : o.writes with
    | false =>
      rw [(exec_framed hexec).disk hwrites]
      exact h
    | true =>
      have hmove : ∀ {p q : Path} {t : Tree}, (∀ a b, Apart ["products", a, b] p) →
          (∀ a b, Apart ["products", a, b] q) → (s.disk.move p q t).Flat := by
        intro p q t hp hq
        have hmid : (s.disk.put p none).Flat := h.elsewhere rfl hp
        exact hmid.elsewhere rfl hq
      cases o with
      | mkdir p =>
        rcases Shared.writing_eq hexec with rfl | ⟨disk, hdisk, rfl⟩
        · exact h
        · rw [Disk.mkdir_of_isDir (hinv.disk.isDir hallowed)] at hdisk
          cases hdisk
          exact h
      | rename p q =>
        rcases Shared.writing_eq hexec with rfl | ⟨disk, hdisk, rfl⟩
        · exact h
        · obtain ⟨t, ht, rfl⟩ := Disk.rename_ok hdisk
          rcases hallowed with ⟨name, label, rfl, rfl, _⟩ | ⟨oid, rfl, rfl, _⟩
          · exact hmove (by simp [observationsRoot]) (by simp [quarantineEntry])
          · exact hmove (by simp [msPathOf]) (by simp [trashPath])
      | rmtree p =>
        rcases Shared.removing_eq hexec with rfl | ⟨disk, hdisk, rfl⟩ | ⟨t, disk, hpart, rfl⟩
        · exact h
        · obtain ⟨u, hu, rfl⟩ := Disk.rmtree_ok hdisk
          exact Removable.flat hallowed h rfl hu (by simp)
        · have hdir := Disk.rmtreePart_isDir hpart
          obtain ⟨u, hu, _, _, rfl⟩ := Disk.rmtreePart_some hpart
          exact Removable.flat hallowed h rfl hu (by simp [hdir])
      | unlink p =>
        rcases Shared.removing_eq hexec with rfl | ⟨disk, hdisk, rfl⟩ | ⟨t, disk, hpart, rfl⟩
        · exact h
        · obtain ⟨u, hu, rfl⟩ := Disk.unlink_ok hdisk
          exact Removable.flat hallowed h rfl hu (by simp)
        · cases hpart
      | _ => cases hwrites
  env := by
    intro e s s' hinv h _ _ hmoves
    cases env_move hmoves with
    | runners later orphans => exact h
    | write found wf =>
      have hpath := hinv.runners.msPath _ (List.mem_of_getElem? found)
      exact h.elsewhere rfl (by simp [hpath, msPathOf])
    | loss => exact h.elsewhere rfl (by simp [msPathOf])
    | product wf dir below =>
      have hproducts := hinv.disk.dirs "products" (by simp [layout])
      exact (h.ensureDir hproducts _).output rfl (Disk.isDirAt_iff.mp below)
        fun u hu => Option.some.inj hu ▸ dir
  enter := by
    intro r n s s' _ h _ hmoves
    rw [(enter_same hmoves).2.1]
    exact h
  down _ h := h

/-- The rows of a reachable state have their places, whatever the files are. -/
theorem Inv.placed (hinv : Inv T s) {d : Disk} (hd : d.Stands) :
    ({ s with disk := d } : Shared).estate.Placed where
  obsNodup := hinv.db.ids.obsNodup
  runNodup := hinv.db.ids.runNodup
  msPath o ho := ⟨_, hinv.db.msPath _ o (Keyed.find_of_mem hinv.db.ids.obsNodup ho)⟩
  own o ho p hp heq := by
    rw [hinv.db.msPath _ o (Keyed.find_of_mem hinv.db.ids.obsNodup ho),
      hinv.db.msPath _ p (Keyed.find_of_mem hinv.db.ids.obsNodup hp)] at heq
    simpa using heq
  outputs q hq := by
    have hout := hinv.db.outputPrefix _ q (Keyed.find_of_mem hinv.db.ids.runNodup hq)
    exact ⟨_, _, by rw [hout, parent_product]; rfl⟩
  stands := hd

theorem Inv.regular (hinv : Inv T s) (hflat : s.disk.Flat) : s.estate.Regular where
  toPlaced := hinv.placed hinv.disk.dirs
  covered n hn := by
    obtain ⟨oid, o, ho, rfl⟩ := hinv.disk.covered "observations" n (.inl rfl) hn
    exact ⟨o, (Db.mem_of_obs? ho).1, hinv.db.msPath oid o ho⟩
  flat q hq := by
    have hout := hinv.db.outputPrefix _ q (Keyed.find_of_mem hinv.db.ids.runNodup hq)
    exact ⟨_, _, by rw [hout, parent_product]; rfl⟩
  noFile q hq := by
    have hout := hinv.db.outputPrefix _ q (Keyed.find_of_mem hinv.db.ids.runNodup hq)
    rw [hout, parent_product]
    exact hflat _ _

theorem Limits.Reach.regular {w : World Op.Reply Exn Shared Role Entry} (h : unlimited.Reach w) :
    w.shared.estate.Regular := h.inv.regular (h.keeps flat_keeps)

end Sdpctl
