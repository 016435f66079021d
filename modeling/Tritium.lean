import Tritium.Allocator.Proof.Pareto
import Tritium.Allocator.Proof.PackedUniform
import Tritium.Allocator.Proof.WaterFilling
import Tritium.Entropy.Proof.Transport
import Tritium.Entropy.Proof.Seekable
import Tritium.Entropy.Proof.SelfDelimiting
import Tritium.Package.Proof.Canonicalize
import Tritium.Package.Proof.Placement
import Tritium.Package.Proof.Spool
import Tritium.Package.Proof.Sizing
import Tritium.Salt.Proof.JointBundle
import Tritium.Salt.Proof.Bundle
import Tritium.SafeTensors.Proof.Reader
import Tritium.Gguf.Proof.Stream
import Tritium.Model.Proof.SeekReader
import Tritium.Serve.Proof.Generator
import Tritium.Serve.Proof.Lookup
import Tritium.Serve.Proof.Sse
import Tritium.Serve.Proof.Admission
import Tritium.Model.Proof.Manifest
import Tritium.Train.Proof.Sampler
import Tritium.Cuda.Proof.Pages
