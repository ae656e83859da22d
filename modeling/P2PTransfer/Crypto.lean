import P2PTransfer.Storage.Bytes

/-!
# Cryptographic and compression primitives

The program calls BLAKE3, X25519, HKDF, ChaCha20-Poly1305 and zstd through
libraries. They are one parameter of the development, with the documented laws
that the transfer code relies on.

## Main definitions

- `Nonce` — `build_nonce`: the prefix of a transfer and the counter of a chunk
- `Primitives` — the library functions and their laws
- `Primitives.plain` — transparent primitives that satisfy the laws
-/

namespace P2PTransfer

/-- `aead::TAG_LEN`. -/
def tagLen : Nat := 16

/-- The twelve bytes of `build_nonce`: four of prefix, eight of big-endian counter. -/
structure Nonce where
  pre : Bytes
  counter : Nat
deriving DecidableEq, Repr

def buildNonce (pre : Bytes) (counter : Nat) : Nonce := ⟨pre, counter⟩

/-- The library functions the transfer code calls. -/
structure Primitives where
  Secret : Type
  Public : Type
  Key : Type
  Digest : Type
  decPublic : DecidableEq Public
  decDigest : DecidableEq Digest
  publicKey : Secret → Public
  /-- Diffie–Hellman followed by `derive_encryption_key`. -/
  deriveKey : Secret → Public → Key
  blake3 : Bytes → Digest
  encrypt : Key → Nonce → Bytes → Bytes
  decrypt : Key → Nonce → Bytes → Option Bytes
  /-- `zstd::compress` at a level may fail; the caller then sends the bytes as they are. -/
  compress : Int → Bytes → Option Bytes
  decompress : Bytes → Option Bytes
  deriveKey_comm : ∀ a b, deriveKey a (publicKey b) = deriveKey b (publicKey a)
  decrypt_encrypt : ∀ k n p, decrypt k n (encrypt k n p) = some p
  encrypt_length : ∀ k n p, (encrypt k n p).length = p.length + tagLen
  decompress_compress : ∀ l p c, compress l p = some c → decompress c = some p

namespace Primitives

instance (C : Primitives) : DecidableEq C.Public := C.decPublic
instance (C : Primitives) : DecidableEq C.Digest := C.decDigest

/-- Primitives that hide nothing: the tag is sixteen zero bytes, the digest of a
content is the content. -/
@[simps] def plain : Primitives where
  Secret := Unit
  Public := Unit
  Key := Unit
  Digest := Bytes
  decPublic := inferInstance
  decDigest := inferInstance
  publicKey _ := ()
  deriveKey _ _ := ()
  blake3 content := content
  encrypt _ _ p := p ++ List.replicate tagLen 0
  decrypt _ _ c := some (c.take (c.length - tagLen))
  compress _ p := some p
  decompress c := some c
  deriveKey_comm _ _ := rfl
  decrypt_encrypt k n p := by simp
  encrypt_length k n p := by simp
  decompress_compress l p c h := h.symm ▸ rfl

def plainSecret : plain.Secret := ()

end Primitives

end P2PTransfer
