import PageStore.Config.Reader
import PageStore.Tree.Cursor
import PageStore.Tree.Destroy
import PageStore.Tree.Remove
import PageStore.Tree.Verify
import PageStore.Bytes.Hex
import PageStore.Proofs.Space.Run
import PageStore.Proofs.Pool.Books
import PageStore.Proofs.Tree.Run
import PageStore.Proofs.Node.Accepted
import PageStore.Proofs.Tree.Reading
import PageStore.Proofs.Tree.Walk
import PageStore.Proofs.Tree.Reach
import PageStore.Proofs.Tree.Verified
import PageStore.Proofs.Roots
import PageStore.Proofs.Tree.Recorded
import PageStore.Proofs.Forest
import PageStore.Proofs.Space.Tally
import PageStore.Proofs.Space.Reach
import PageStore.Proofs.Space.Settled
import PageStore.Proofs.Space.Twins
import PageStore.Proofs.Tree.Loss
import PageStore.Proofs.Space.Contents
import PageStore.Proofs.Pool.Durable
import PageStore.Proofs.Tree.Halting
import PageStore.Proofs.Tree.Registry
import PageStore.Proofs.Tree.Thrift
import PageStore.Proofs.Node.Readable
import PageStore.Proofs.Tree.Scan
import PageStore.Proofs.Tree.Neighbours
import PageStore.Proofs.Pool.Line
import PageStore.Proofs.Pool.Eviction
import PageStore.Proofs.Pool.Failure
import PageStore.Proofs.Tree.Levels
import PageStore.Proofs.Node.Entries
import PageStore.Proofs.Node.Children
import PageStore.Proofs.Replacer.Run
import PageStore.Proofs.Space.Offsets
import PageStore.Proofs.Roots.Bounded
import PageStore.Proofs.Key.Signed
import PageStore.Proofs.Node.Exact
import PageStore.Proofs.Tree.Glance
