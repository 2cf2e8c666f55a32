import TypedStream.Catalog
import TypedStream.Input.Cursor
import TypedStream.Proofs.RoundTrip
import TypedStream.Proofs.Truncation
import TypedStream.Proofs.RandomAccess
import TypedStream.Report
import TypedStream.Proofs.Codec.Raises
import TypedStream.Proofs.Order.Reading
import TypedStream.Proofs.Order.Ending
import TypedStream.Proofs.Order.Writing
import TypedStream.Proofs.Index.Payload
import TypedStream.Proofs.SensorLog.Data
import TypedStream.Proofs.SensorLog.Decoding
import TypedStream.Proofs.Copying
import TypedStream.Proofs.SensorLog.Evolution
import TypedStream.Proofs.Regrouping
import TypedStream.Proofs.Index.Loading
import TypedStream.Proofs.Batching
import TypedStream.Proofs.Input.Unbuffered
import TypedStream.Proofs.Output.Buffering
import TypedStream.Proofs.Opening
import TypedStream.Proofs.Ty.Runs
import TypedStream.Proofs.Ty.Accepting
import TypedStream.Proofs.FailedSeeks
import TypedStream.Proofs.Landing
import TypedStream.Proofs.DeviceFailures
import TypedStream.Proofs.Codec.Integers
import TypedStream.Proofs.Grid
import TypedStream.Proofs.Index.Accounts
import TypedStream.Proofs.Ty.Maps
import TypedStream.Proofs.Index.Lookup
import TypedStream.Proofs.Order.Refusals
import TypedStream.Proofs.RowMajor
import TypedStream.Proofs.Draining
import TypedStream.Proofs.Retype
